import Peql.Lib.Debug
import Peql.Lib.Disk
import Peql.Lib.Runs
import Mathlib.Data.UInt

/-!
# Whole-file writes

`atomic::write` writes a temporary file of the call's own and renames it into place. Processes on one disk write at
once, each call a step at a time; a process may die, and another be given its number. Who reads a file reads it piece by
piece.
-/

namespace Peql

open Runs

structure Path where
  dir : String
  name : String
deriving DecidableEq

abbrev Bytes := List UInt8

/-- A process, and the number `NEXT` gave a call of it. -/
abbrev CallId := UInt32 × UInt64

/-- The name of a call's temporary file. -/
def tmpName (name : String) (id : CallId) : String :=
  "." ++ name ++ "." ++ Nat.repr id.1.toNat ++ "." ++ Nat.repr id.2.toNat ++ ".tmp"

namespace Path

def tmp (path : Path) (id : CallId) : Path := { path with name := tmpName path.name id }

def Temporary (path : Path) : Prop := ".tmp".toList <:+ path.name.toList

instance : DecidablePred Temporary := fun path => inferInstanceAs (Decidable (".tmp".toList <:+ path.name.toList))

theorem temporary_tmp (path : Path) (id : CallId) : (path.tmp id).Temporary := by
  unfold Temporary tmp tmpName
  rw [String.toList_append]
  exact List.suffix_append _ _

end Path

/-- No two calls have a temporary file of one name. -/
theorem tmpName_inj {name name' : String} {id id' : CallId} (h : tmpName name id = tmpName name' id') :
    name = name' ∧ id = id' := by
  have hlist := congrArg String.toList h
  simp only [tmpName, String.toList_append, List.append_assoc] at hlist
  have hdot : ∀ n : Nat, '.' ∉ (Nat.repr n).toList := Debug.notMem_repr rfl
  have hcut : ∀ {a b : List Char} {m n : Nat}, a ++ ('.' :: (Nat.repr m).toList) = b ++ ('.' :: (Nat.repr n).toList) →
      a = b ∧ m = n := by
    intro a b m n hab
    obtain ⟨ha, hn⟩ := Debug.cut_last (hdot m) (hdot n) hab
    exact ⟨ha, Debug.repr_inj (String.toList_injective hn)⟩
  have hends : ∀ (a : String) (i : CallId), ".".toList ++ (a.toList ++ (".".toList ++ ((Nat.repr i.1.toNat).toList ++
      (".".toList ++ ((Nat.repr i.2.toNat).toList ++ ".tmp".toList))))) =
      ((('.' :: a.toList) ++ '.' :: (Nat.repr i.1.toNat).toList) ++ '.' :: (Nat.repr i.2.toNat).toList) ++
        ".tmp".toList := by
    intro a i
    simp [List.append_assoc]
  rw [hends, hends] at hlist
  obtain ⟨hfront, hn⟩ := hcut (List.append_cancel_right hlist)
  obtain ⟨hname, hpid⟩ := hcut hfront
  refine ⟨String.toList_injective (List.cons.inj hname).2, Prod.ext (UInt32.toNat_inj.1 hpid) (UInt64.toNat_inj.1 hn)⟩

/-! ## Calls -/

/-- Where a call of `write` is: it is to create its temporary file; it has that file open, and is to write what is left,
then to rename it; the rename failed, and it is to remove the file. -/
inductive Stage
  | creating
  | writing (fd : Nat) (left : Bytes)
  | removing (cause : String)

structure AtomicWrite where
  id : CallId
  path : Path
  bytes : Bytes
  stage : Stage

def AtomicWrite.tmp (c : AtomicWrite) : Path := c.path.tmp c.id

/-- Calls under way at once have temporary files of their own. -/
theorem AtomicWrite.tmp_ne {c c' : AtomicWrite} (h : c.id ≠ c'.id) : c.tmp ≠ c'.tmp :=
  fun heq => h (tmpName_inj (congrArg Path.name heq)).2

/-- Somebody reading an open file, and what has been read of it. -/
structure FileReader where
  fd : Nat
  got : Bytes

/-- Processes on one disk, each with what it numbers its next call, the calls under way, and who reads. -/
structure Writers where
  disk : Disk Path UInt8
  procs : UInt32 → Option UInt64
  calls : Nat → Option AtomicWrite
  readers : Nat → Option FileReader

inductive WriterAction
  | starts (pid : UInt32)
  | dies (pid : UInt32)
  | calls (k : Nat) (id : CallId) (path : Path) (bytes : Bytes)
  | creates (k : Nat)
  | createFails (k : Nat) (cause : String)
  | writes (k : Nat) (chunk : Bytes)
  | writeFails (k : Nat) (cause : String)
  | renames (k : Nat) (path : Path) (bytes : Bytes)
  | renameFails (k : Nat) (cause : String)
  | removes (k : Nat) (fault : Option String)
  /-- Somebody removes a file. -/
  | unlinks (path : Path)
  | opens (r : Nat) (path : Path)
  | misses (path : Path)
  | reads (r : Nat) (count : Nat)
  | ends (r : Nat) (whole : Bytes)

namespace Writers

def setCall (s : Writers) (k : Nat) (c : Option AtomicWrite) : Writers :=
  { s with calls := Function.update s.calls k c }

def onDisk (s : Writers) (d : Disk Path UInt8) : Writers := { s with disk := d }

def setReader (s : Writers) (r : Nat) (rd : Option FileReader) : Writers :=
  { s with readers := Function.update s.readers r rd }

def setProc (s : Writers) (pid : UInt32) (next : Option UInt64) : Writers :=
  { s with procs := Function.update s.procs pid next }

/-- The calls of a process die with it, and leave the disk as it is. -/
def die (s : Writers) (pid : UInt32) : Writers :=
  { s.setProc pid none with calls := fun k => (s.calls k).filter fun c => c.id.1 ≠ pid }

@[simp] theorem calls_setCall (s : Writers) (k : Nat) (c : Option AtomicWrite) :
    (s.setCall k c).calls = Function.update s.calls k c := rfl

@[simp] theorem disk_setCall (s : Writers) (k : Nat) (c : Option AtomicWrite) : (s.setCall k c).disk = s.disk := rfl

@[simp] theorem disk_onDisk (s : Writers) (d : Disk Path UInt8) : (s.onDisk d).disk = d := rfl

@[simp] theorem readers_setReader (s : Writers) (r : Nat) (rd : Option FileReader) :
    (s.setReader r rd).readers = Function.update s.readers r rd := rfl

@[simp] theorem calls_onDisk (s : Writers) (d : Disk Path UInt8) : (s.onDisk d).calls = s.calls := rfl

end Writers

/-- A call that returns is gone: of `renames`, with success; of the others, with the error met. -/
inductive WriterStep : Writers → WriterAction → Writers → Prop
  | starts {s : Writers} {pid : UInt32} (h : s.procs pid = none) :
      WriterStep s (.starts pid) (s.setProc pid (some 0))
  | dies {s : Writers} (pid : UInt32) : WriterStep s (.dies pid) (s.die pid)
  | calls {s : Writers} {k : Nat} (hk : s.calls k = none) {pid : UInt32} {n : UInt64} (h : s.procs pid = some n)
      {path : Path} (htarget : ¬ path.Temporary) (bytes : Bytes) :
      WriterStep s (.calls k (pid, n) path bytes)
        ((s.setProc pid (some (n + 1))).setCall k (some ⟨(pid, n), path, bytes, .creating⟩))
  | creates {s : Writers} {k : Nat} {c : AtomicWrite} (h : s.calls k = some c) (hstage : c.stage = .creating) :
      WriterStep s (.creates k) ((s.onDisk (s.disk.create c.tmp)).setCall k
        (some { c with stage := .writing (s.disk.fileFor c.tmp) c.bytes }))
  | createFails {s : Writers} {k : Nat} {c : AtomicWrite} (h : s.calls k = some c) (hstage : c.stage = .creating)
      (cause : String) : WriterStep s (.createFails k cause) (s.setCall k none)
  | writes {s : Writers} {k : Nat} {c : AtomicWrite} {fd : Nat} {chunk left : Bytes} (h : s.calls k = some c)
      (hstage : c.stage = .writing fd (chunk ++ left)) :
      WriterStep s (.writes k chunk)
        ((s.onDisk (s.disk.append fd chunk)).setCall k (some { c with stage := .writing fd left }))
  /-- The temporary file stays. -/
  | writeFails {s : Writers} {k : Nat} {c : AtomicWrite} {fd : Nat} {left : Bytes} (h : s.calls k = some c)
      (hstage : c.stage = .writing fd left) (hleft : left ≠ []) (cause : String) :
      WriterStep s (.writeFails k cause) (s.setCall k none)
  | renames {s : Writers} {k : Nat} {c : AtomicWrite} {fd : Nat} {d : Disk Path UInt8} (h : s.calls k = some c)
      (hstage : c.stage = .writing fd []) (hd : s.disk.rename c.tmp c.path = some d) :
      WriterStep s (.renames k c.path c.bytes) ((s.onDisk d).setCall k none)
  | renameFails {s : Writers} {k : Nat} {c : AtomicWrite} {fd : Nat} (h : s.calls k = some c)
      (hstage : c.stage = .writing fd []) (cause : String) :
      WriterStep s (.renameFails k cause) (s.setCall k (some { c with stage := .removing cause }))
  /-- What removing meets is not reported. -/
  | removes {s : Writers} {k : Nat} {c : AtomicWrite} {cause : String} (h : s.calls k = some c)
      (hstage : c.stage = .removing cause) (fault : Option String) :
      WriterStep s (.removes k fault)
        ((if fault.isNone then s.onDisk (s.disk.unlink c.tmp) else s).setCall k none)
  | unlinks {s : Writers} (path : Path) : WriterStep s (.unlinks path) (s.onDisk (s.disk.unlink path))
  | opens {s : Writers} {r : Nat} (hr : s.readers r = none) {path : Path} (hpath : ¬ path.Temporary) {fd : Nat}
      (h : s.disk.names path = some fd) : WriterStep s (.opens r path) (s.setReader r (some ⟨fd, []⟩))
  | misses {s : Writers} {path : Path} (hpath : ¬ path.Temporary) (h : s.disk.names path = none) :
      WriterStep s (.misses path) s
  /-- A read gets some of what comes next. -/
  | reads {s : Writers} {r : Nat} {rd : FileReader} (h : s.readers r = some rd) (count : Nat) :
      WriterStep s (.reads r count) (s.setReader r
        (some ⟨rd.fd, rd.got ++ ((s.disk.files rd.fd).drop rd.got.length).take count⟩))
  /-- It is at the end of the file. -/
  | ends {s : Writers} {r : Nat} {rd : FileReader} (h : s.readers r = some rd)
      (hend : (s.disk.files rd.fd).drop rd.got.length = []) :
      WriterStep s (.ends r rd.got) (s.setReader r none)

/-- A call is given a number that no call of its process under way has: `NEXT` comes round after 2^64 calls. -/
def Unwrapped (s : Writers) : WriterAction → Prop
  | .calls _ id _ _ => ∀ k c, s.calls k = some c → c.id ≠ id
  | _ => True

end Peql
