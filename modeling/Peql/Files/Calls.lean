import Peql.Facts.Fold
import Peql.Files.Dir
import Peql.Lib.Runs

/-!
# Calls over one directory or prefix

Data files, and beside them a manifest for each contract bound to them. A finished append loads what each of its
contracts knew, publishes its files one by one, and records what each knows after (`publish_write`); a validation reads
the live rows, then lists the live files, then records (`refresh`). Any number of calls of any engines are under way at
once, and a step is one of their reads or writes of the store.
-/

namespace Peql

variable {conforms : Row → Prop}

/-- What a write knew of the data before it: nothing (`none`), that it had no files (`some none`), or its manifest. -/
abbrev Before := Option (Option Manifest)

/-- A finished append: the files it wrote, and when it began to publish them. -/
structure Append (conforms : Row → Prop) where
  files : List (DataFile conforms)
  writtenAt : Int

/-- Where a call is. -/
inductive Call (conforms : Row → Prop)
  /-- An append is to load the manifest of `c`, then of `rest`. -/
  | loading (w : Append conforms) (known : List (Compilation × Before)) (c : Compilation) (rest : List Compilation)
  /-- It found none of `c`, and is to see whether there are files. -/
  | listing (w : Append conforms) (known : List (Compilation × Before)) (c : Compilation) (rest : List Compilation)
  /-- It moves the files left, then records for each contract left. -/
  | publishing (w : Append conforms) (known : List (Compilation × Before)) (moved left : List (DataFile conforms))
  /-- A validation under `c` is to read the rows. -/
  | reading (c : Compilation)
  /-- It is to list the files. -/
  | counting (c : Compilation) (verdict : Verdict)
  /-- It is to record. -/
  | saving (c : Compilation) (verdict : Verdict) (entries : List FileEntry)
  | returned
  | failed (e : PeqlError)

/-- The append goes on to the next contract, or to its files. -/
def Call.loadRest (w : Append conforms) (known : List (Compilation × Before)) : List Compilation → Call conforms
  | [] => .publishing w known [] w.files
  | c :: rest => .loading w known c rest

section Steps

variable (sha256 : String → String) (p : Parsers) (validate : Compilation → Multiset Row → Verdict)

/-- The facts an append computed of its own rows under `c`, before it began to publish. -/
def Append.facts (w : Append conforms) (c : Compilation) : WriteFacts :=
  Made.facts sha256 c (validate c) ⟨.append w.files, w.writtenAt, none⟩

/-- What the append records for `c`: its manifest after the write, or that there is none. -/
def Append.after (w : Append conforms) (c : Compilation) (before : Before) : Except PeqlError (Option Manifest) :=
  match before with
  | some b => afterWrite sha256 p c b (w.facts sha256 validate c) w.writtenAt none
  | none => .ok none

/-- The store, and the calls under way on it. -/
structure Calls (conforms : Row → Prop) where
  dir : Dir (DataFile conforms)
  calls : Lookup Nat (Call conforms)

/-- Call `n` is at `c`, and the store is `d`. -/
def Calls.put (s : Calls conforms) (n : Nat) (c : Call conforms) (d : Dir (DataFile conforms)) : Calls conforms :=
  ⟨d, s.calls.insert n c⟩

inductive CallAction
  | appends (n : Nat) | validates (n : Nat) | loads (n : Nat) | lists (n : Nat) | moves (n : Nat) | records (n : Nat)
  | reads (n : Nat) | counts (n : Nat) | saves (n : Nat) | returns (n : Nat)

/-- The contracts bound to the data, each in one of the versions an engine has registered: an engine may have registered
some of them, and an append takes its own engine's. -/
structure Binding where
  names : List String
  versions : Compilation → Prop

/-- One read or write of the store by a call. -/
inductive CallStep (B : Binding) : Calls conforms → CallAction → Calls conforms → Prop
  | appends {s : Calls conforms} {n : Nat} {w : Append conforms} {reg : Compilation} {others : List Compilation}
      (fresh : s.calls n = none) (names : ∀ c ∈ reg :: others, c.contract.name ∈ B.names)
      (distinct : ((reg :: others).map fun c => c.contract.name).Nodup) (versions : ∀ c ∈ reg :: others, B.versions c) :
      CallStep B s (.appends n) (s.put n (.loadRest w [] (reg :: others)) s.dir)
  | validates {s : Calls conforms} {n : Nat} {c : Compilation} (fresh : s.calls n = none)
      (name : c.contract.name ∈ B.names) (version : B.versions c) :
      CallStep B s (.validates n) (s.put n (.reading c) s.dir)
  | loads {s : Calls conforms} {n : Nat} {w : Append conforms} {known : List (Compilation × Before)} {c : Compilation}
      {rest : List Compilation} (holds : s.calls n = some (.loading w known c rest)) :
      CallStep B s (.loads n) (s.put n (match s.dir.load c.contract.name with
        | .error e => .failed e
        | .ok (some m) => .loadRest w (known ++ [(c, some (some m))]) rest
        | .ok none => .listing w known c rest) s.dir)
  | lists {s : Calls conforms} {n : Nat} {w : Append conforms} {known : List (Compilation × Before)} {c : Compilation}
      {rest : List Compilation} (holds : s.calls n = some (.listing w known c rest)) :
      CallStep B s (.lists n)
        (s.put n (.loadRest w (known ++ [(c, if s.dir.files.isEmpty then some none else none)]) rest) s.dir)
  | moves {s : Calls conforms} {n : Nat} {w : Append conforms} {known : List (Compilation × Before)}
      {moved left : List (DataFile conforms)} {f : DataFile conforms}
      (holds : s.calls n = some (.publishing w known moved (f :: left)))
      (fresh : f.path ∉ s.dir.files.map DataFile.path) :
      CallStep B s (.moves n) (s.put n (.publishing w known (moved ++ [f]) left) (s.dir.add f))
  | records {s : Calls conforms} {n : Nat} {w : Append conforms} {known : List (Compilation × Before)}
      {moved : List (DataFile conforms)} {c : Compilation} {before : Before}
      (holds : s.calls n = some (.publishing w ((c, before) :: known) moved [])) :
      CallStep B s (.records n) (match w.after sha256 p validate c before with
        | .error e => s.put n (.failed e) s.dir
        | .ok (some m) => s.put n (.publishing w known moved []) (s.dir.save m)
        | .ok none => s.put n (.publishing w known moved []) (s.dir.remove c.contract.name))
  | reads {s : Calls conforms} {n : Nat} {c : Compilation} (holds : s.calls n = some (.reading c)) :
      CallStep B s (.reads n) (s.put n (.counting c (validate c (rowsOf s.dir.files))) s.dir)
  | counts {s : Calls conforms} {n : Nat} {c : Compilation} {verdict : Verdict} {entries : List FileEntry}
      (holds : s.calls n = some (.counting c verdict)) (listed : entries.Perm (s.dir.files.map DataFile.entry)) :
      CallStep B s (.counts n) (s.put n (.saving c verdict entries) s.dir)
  | saves {s : Calls conforms} {n : Nat} {c : Compilation} {verdict : Verdict} {entries : List FileEntry}
      (writtenAt decidedAt : Int) (holds : s.calls n = some (.saving c verdict entries)) :
      CallStep B s (.saves n)
        (s.put n .returned (s.dir.save (wholeManifest sha256 c verdict entries writtenAt decidedAt none)))
  | returns {s : Calls conforms} {n : Nat} {w : Append conforms} {moved : List (DataFile conforms)}
      (holds : s.calls n = some (.publishing w [] moved [])) :
      CallStep B s (.returns n) (s.put n .returned s.dir)

end Steps

end Peql
