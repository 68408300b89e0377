import Peql.Atomic
import Peql.Files.Dir

/-!
# Files replaced at one moment

Over the files that are not temporary, a disk in the course of `atomic::write` calls is one on which a write replaces
its file at one moment, its renaming, and a read takes the file as it was when it was opened (`writes_atomic`). So a
manifest is recorded in one step, as it is elsewhere (`Whole.dir_save`). Of temporary files none stay but those of calls
that could not write, or died (`temporaries_of_calls`).
-/

namespace Peql

open Runs

/-- Files, and what is being read. -/
structure Whole where
  files : Path → Option Bytes
  readers : Nat → Option Bytes

namespace Whole

def put (w : Whole) (path : Path) (content : Option Bytes) : Whole :=
  { w with files := Function.update w.files path content }

def setReader (w : Whole) (r : Nat) (whole : Option Bytes) : Whole :=
  { w with readers := Function.update w.readers r whole }

@[simp] theorem files_put_self (w : Whole) (path : Path) (content : Option Bytes) :
    (w.put path content).files path = content := Function.update_self _ _ _

/-- Other files stay. -/
theorem files_put_of_ne (w : Whole) {p path : Path} (content : Option Bytes) (h : p ≠ path) :
    (w.put path content).files p = w.files p := Function.update_of_ne h _ _

end Whole

inductive WholeAction
  | replaces (path : Path) (bytes : Bytes)
  | unlinks (path : Path)
  | opens (r : Nat) (path : Path)
  | misses (path : Path)
  | ends (r : Nat) (whole : Bytes)

inductive WholeStep : Whole → WholeAction → Whole → Prop
  | replaces {w : Whole} (path : Path) (bytes : Bytes) :
      WholeStep w (.replaces path bytes) (w.put path (some bytes))
  | unlinks {w : Whole} (path : Path) :
      WholeStep w (.unlinks path) (w.put path none)
  /-- The whole file is taken. -/
  | opens {w : Whole} {r : Nat} (hr : w.readers r = none) {path : Path} {whole : Bytes}
      (h : w.files path = some whole) :
      WholeStep w (.opens r path) (w.setReader r (some whole))
  | misses {w : Whole} {path : Path} (h : w.files path = none) : WholeStep w (.misses path) w
  | ends {w : Whole} {r : Nat} {whole : Bytes} (h : w.readers r = some whole) :
      WholeStep w (.ends r whole) (w.setReader r none)

/-- What is seen of an action from outside. -/
def WriterAction.visible : WriterAction → Option WholeAction
  | .renames _ path bytes => some (.replaces path bytes)
  | .unlinks path => some (.unlinks path)
  | .opens r path => some (.opens r path)
  | .misses path => some (.misses path)
  | .ends r whole => some (.ends r whole)
  | _ => none

/-! ## What calls under way have written -/

/-- The file a call has open. -/
def AtomicWrite.opened (c : AtomicWrite) : Option Nat :=
  match c.stage with
  | .writing fd _ => some fd
  | _ => none

/-- A file that somebody has open: a call other than the one that moves, or a reader. -/
def Writers.InUse (s : Writers) (mover : Option Nat) (i : Nat) : Prop :=
  (∃ k c, some k ≠ mover ∧ s.calls k = some c ∧ c.opened = some i) ∨ ∃ r rd, s.readers r = some rd ∧ rd.fd = i

/-- A call's temporary file holds what it has written so far, and is its own. -/
structure Filling (d : Disk Path UInt8) (c : AtomicWrite) (fd : Nat) (left : Bytes) : Prop where
  written : d.files fd ++ left = c.bytes
  own : ∀ p, d.names p = some fd → p = c.tmp
  named : ∀ i, d.names c.tmp = some i → i = fd
  allocated : fd < d.next

/-- A reader has a file open that will not change, and has read where it begins. -/
structure ReadSoFar (d : Disk Path UInt8) (rd : FileReader) (whole : Bytes) : Prop where
  holds : d.files rd.fd = whole
  got : rd.got <+: whole
  allocated : rd.fd < d.next
  lasting : ∀ p, d.names p = some rd.fd → ¬ p.Temporary

/-- A disk in the course of writes stands for files: those that are not temporary. -/
structure Stands (s : Writers) (w : Whole) : Prop where
  numbered : ∀ k k' c c', s.calls k = some c → s.calls k' = some c' → c.id = c'.id → k = k'
  target : ∀ k c, s.calls k = some c → ¬ c.path.Temporary
  filling : ∀ k c fd left, s.calls k = some c → c.stage = .writing fd left → Filling s.disk c fd left
  /-- What a call has open is used by no other. -/
  apart : ∀ k c fd, s.calls k = some c → c.opened = some fd → ¬ s.InUse (some k) fd
  files : ∀ p, ¬ p.Temporary → s.disk.content p = w.files p
  readers : ∀ r, Option.Rel (ReadSoFar s.disk) (s.readers r) (w.readers r)

/-- A call has a file open while it writes. -/
theorem AtomicWrite.opened_eq_some {c : AtomicWrite} {fd : Nat} :
    c.opened = some fd ↔ ∃ left, c.stage = .writing fd left := by
  obtain ⟨id, path, bytes, stage⟩ := c
  cases stage with
  | creating => simp [opened]
  | writing fd' left => simp [opened]
  | removing cause => simp [opened]

/-- A call's file stays as far filled when others' change. -/
theorem Filling.frame {d d' : Disk Path UInt8} {c : AtomicWrite} {fd : Nat} {left : Bytes}
    (h : Filling d c fd left) (hd : Disk.Spares d d' fd)
    (hnamed : ∀ i, d'.names c.tmp = some i → d.names c.tmp = some i) : Filling d' c fd left where
  written := by rw [hd.files, h.written]
  own := fun p hp => h.own p (hd.names p hp)
  named := fun i hi => h.named i (hnamed i hi)
  allocated := h.allocated.trans_le hd.next

/-- A reader has read as much of its file when others change. -/
theorem ReadSoFar.frame {d d' : Disk Path UInt8} {rd : FileReader} {whole : Bytes} (h : ReadSoFar d rd whole)
    (hd : Disk.Spares d d' rd.fd) : ReadSoFar d' rd whole where
  holds := by rw [hd.files, h.holds]
  got := h.got
  allocated := h.allocated.trans_le hd.next
  lasting := fun p hp => h.lasting p (hd.names p hp)

/-! ## Steps -/

namespace Stands

variable {s t : Writers} {w w' : Whole} {mover : Option Nat} {k : Nat} {c : AtomicWrite}

/-- A reader's file is one it sees whole. -/
theorem reading (h : Stands s w) {r : Nat} {rd : FileReader} (hr : s.readers r = some rd) :
    ∃ whole, w.readers r = some whole ∧ ReadSoFar s.disk rd whole := by
  have hrel := h.readers r
  rw [hr] at hrel
  generalize w.readers r = read at hrel
  cases hrel with
  | some hread => exact ⟨_, rfl, hread⟩

theorem not_reading (h : Stands s w) {r : Nat} (hr : s.readers r = none) : w.readers r = none := by
  have hrel := h.readers r
  rw [hr] at hrel
  generalize w.readers r = read at hrel
  cases hrel
  rfl

/-- Files in use are files there are. -/
theorem lt_of_inUse (h : Stands s w) {i : Nat} (hi : s.InUse mover i) : i < s.disk.next := by
  rcases hi with ⟨k, c, -, hc, hfd⟩ | ⟨r, rd, hr, rfl⟩
  · obtain ⟨left, hstage⟩ := AtomicWrite.opened_eq_some.1 hfd
    exact (h.filling k c i left hc hstage).allocated
  · obtain ⟨_, _, hread⟩ := h.reading hr
    exact hread.allocated

/-- The temporary file of a call is used by no other. -/
theorem tmp_ne_of_inUse (h : Stands s w) (hc : s.calls k = some c) {i : Nat} (hi : s.InUse (some k) i) :
    s.disk.names c.tmp ≠ some i := by
  intro hname
  rcases hi with ⟨k', c', hne, hc', hfd⟩ | ⟨r, rd, hr, rfl⟩
  · obtain ⟨left, hstage⟩ := AtomicWrite.opened_eq_some.1 hfd
    have hown := (h.filling k' c' i left hc' hstage).own _ hname
    refine AtomicWrite.tmp_ne (fun hid => hne ?_) hown
    rw [h.numbered k k' c c' hc hc' hid]
  · obtain ⟨_, _, hread⟩ := h.reading hr
    exact hread.lasting _ hname (c.path.temporary_tmp c.id)

/-- What becomes of the files others use when `mover` moves, or nobody. -/
structure Moves (s t : Writers) (mover : Option Nat) : Prop where
  calls : ∀ k c, some k ≠ mover → t.calls k = some c → s.calls k = some c
  readers : t.readers = s.readers
  spares : ∀ i, s.InUse mover i → Disk.Spares s.disk t.disk i
  named : ∀ k c, some k ≠ mover → s.calls k = some c → ∀ i, t.disk.names c.tmp = some i → s.disk.names c.tmp = some i

/-- What the call that moves is after. -/
structure Moved (s t : Writers) (k : Nat) (c : AtomicWrite) : Prop where
  numbered : ∀ k' c', k' ≠ k → s.calls k' = some c' → c'.id ≠ c.id
  target : ¬ c.path.Temporary
  filling : ∀ fd left, c.stage = .writing fd left → Filling t.disk c fd left
  apart : ∀ fd, c.opened = some fd → ¬ s.InUse (some k) fd

/-- One step of one call or reader, of what the disk stands for. -/
theorem moves (h : Stands s w) (hm : Moves s t mover)
    (hmoved : ∀ k c, mover = some k → t.calls k = some c → Moved s t k c)
    (hfiles : ∀ p, ¬ p.Temporary → t.disk.content p = w'.files p) (hreaders : w'.readers = w.readers) :
    Stands t w' where
  numbered := by
    intro k k' c c' hc hc' hid
    by_contra hne
    by_cases hk : some k = mover
    · have hold' := hm.calls k' c' (fun h' => hne (Option.some.inj (hk.trans h'.symm))) hc'
      exact (hmoved k c hk.symm hc).numbered k' c' (Ne.symm hne) hold' hid.symm
    by_cases hk' : some k' = mover
    · exact (hmoved k' c' hk'.symm hc').numbered k c hne (hm.calls k c hk hc) hid
    · exact hne (h.numbered k k' c c' (hm.calls k c hk hc) (hm.calls k' c' hk' hc') hid)
  target := by
    intro k c hc
    by_cases hk : some k = mover
    · exact (hmoved k c hk.symm hc).target
    · exact h.target k c (hm.calls k c hk hc)
  filling := by
    intro k c fd left hc hstage
    by_cases hk : some k = mover
    · exact (hmoved k c hk.symm hc).filling fd left hstage
    · have hold := hm.calls k c hk hc
      have hopened := AtomicWrite.opened_eq_some.2 ⟨left, hstage⟩
      exact (h.filling k c fd left hold hstage).frame (hm.spares fd (.inl ⟨k, c, hk, hold, hopened⟩))
        (hm.named k c hk hold)
  apart := by
    rintro k c fd hc hfd (⟨k', c', hne, hc', hfd'⟩ | ⟨r, rd, hr, rfl⟩)
    · by_cases hk : some k = mover
      · have hold' := hm.calls k' c' (hk ▸ hne) hc'
        exact (hmoved k c hk.symm hc).apart fd hfd (.inl ⟨k', c', hne, hold', hfd'⟩)
      have hold := hm.calls k c hk hc
      by_cases hk' : some k' = mover
      · exact (hmoved k' c' hk'.symm hc').apart fd hfd' (.inl ⟨k, c, hne.symm, hold, hfd⟩)
      · exact h.apart k c fd hold hfd (.inl ⟨k', c', hne, hm.calls k' c' hk' hc', hfd'⟩)
    · rw [hm.readers] at hr
      by_cases hk : some k = mover
      · exact (hmoved k c hk.symm hc).apart rd.fd hfd (.inr ⟨r, rd, hr, rfl⟩)
      · exact h.apart k c rd.fd (hm.calls k c hk hc) hfd (.inr ⟨r, rd, hr, rfl⟩)
  files := hfiles
  readers := by
    intro r
    rw [hm.readers, hreaders]
    cases hr : s.readers r with
    | none =>
      rw [h.not_reading hr]
      exact .none
    | some rd =>
      obtain ⟨whole, hwhole, hread⟩ := h.reading hr
      rw [hwhole]
      exact .some (hread.frame (hm.spares rd.fd (.inr ⟨r, rd, hr, rfl⟩)))

/-! ## One lemma for each action -/

/-- Who moves leaves the other calls. -/
theorem calls_of_setCall {c' : Option AtomicWrite} {k' : Nat} {c : AtomicWrite} (hk : some k' ≠ some k)
    (h : (s.setCall k c').calls k' = some c) : s.calls k' = some c := by
  rwa [Writers.calls_setCall, Function.update_of_ne (fun h' => hk (congrArg some h'))] at h

/-- A step that leaves the disk moves nothing. -/
theorem Moves.still (hdisk : t.disk = s.disk)
    (hcalls : ∀ k c, some k ≠ mover → t.calls k = some c → s.calls k = some c) (hreaders : t.readers = s.readers) :
    Moves s t mover where
  calls := hcalls
  readers := hreaders
  spares := fun i _ => hdisk ▸ Disk.Spares.refl s.disk i
  named := fun _ _ _ _ _ hname => hdisk ▸ hname

theorem setProc (h : Stands s w) (pid : UInt32) (next : Option UInt64) : Stands (s.setProc pid next) w :=
  have hm : Moves s (s.setProc pid next) none := .still rfl (fun _ _ _ hc => hc) rfl
  h.moves hm (fun _ _ hk => by cases hk) h.files rfl

theorem dies (h : Stands s w) (pid : UInt32) : Stands (s.die pid) w := by
  have hm : Moves s (s.die pid) none := .still rfl (fun k c _ hc => (Option.filter_eq_some_iff.1 hc).1) rfl
  exact h.moves hm (fun _ _ hk => by cases hk) h.files rfl

/-- A call returns, its temporary file as it is. -/
theorem returns (h : Stands s w) (k : Nat) : Stands (s.setCall k none) w := by
  have hm : Moves s (s.setCall k none) (some k) := .still rfl (fun _ _ hk hc => calls_of_setCall hk hc) rfl
  refine h.moves hm ?_ h.files rfl
  intro k' c hk hc
  obtain rfl := Option.some.inj hk
  simp at hc

/-- A new call has done nothing to the disk. -/
theorem calls (h : Stands s w) (k : Nat) {id : CallId} (hid : ∀ k c, s.calls k = some c → c.id ≠ id)
    {path : Path} (htarget : ¬ path.Temporary) (bytes : Bytes) :
    Stands (s.setCall k (some ⟨id, path, bytes, .creating⟩)) w := by
  have hm : Moves s (s.setCall k (some ⟨id, path, bytes, .creating⟩)) (some k) :=
    .still rfl (fun _ _ hk hc => calls_of_setCall hk hc) rfl
  refine h.moves hm ?_ h.files rfl
  intro k' c hk' hc
  obtain rfl := Option.some.inj hk'
  simp only [Writers.calls_setCall, Function.update_self, Option.some.injEq] at hc
  subst hc
  exact ⟨fun k' c' _ hc' => hid k' c' hc', htarget, (fun _ _ hstage => by cases hstage), (fun _ hfd => by cases hfd)⟩

/-- Creating a temporary file is not seen. -/
theorem creates (h : Stands s w) (hc : s.calls k = some c) :
    Stands ((s.onDisk (s.disk.create c.tmp)).setCall k
      (some { c with stage := .writing (s.disk.fileFor c.tmp) c.bytes })) w := by
  have hfresh : ∀ i, s.InUse (some k) i → s.disk.fileFor c.tmp ≠ i := fun i hi =>
    Disk.fileFor_ne (h.lt_of_inUse hi) (h.tmp_ne_of_inUse hc hi)
  have hm : Moves s ((s.onDisk (s.disk.create c.tmp)).setCall k
      (some { c with stage := .writing (s.disk.fileFor c.tmp) c.bytes })) (some k) := by
    refine ⟨fun _ _ hk hc => calls_of_setCall hk hc, rfl, fun i hi => Disk.spares_create (hfresh i hi), ?_⟩
    intro k' c' hk hc' i hname
    have hne : c'.tmp ≠ c.tmp :=
      AtomicWrite.tmp_ne fun hid => hk (congrArg some (h.numbered k' k c' c hc' hc hid))
    simpa [Function.update_of_ne hne] using hname
  refine h.moves hm ?_ ?_ rfl
  · intro k' c' hk hc'
    obtain rfl := Option.some.inj hk
    simp only [Writers.calls_setCall, Function.update_self, Option.some.injEq] at hc'
    subst hc'
    refine ⟨fun k' c' hne hc' hid => hne (h.numbered k' k c' c hc' hc hid), h.target k c hc, ?_, ?_⟩
    · rintro fd left hstage
      obtain ⟨rfl, rfl⟩ := Stage.writing.inj hstage
      have hname : (s.disk.create c.tmp).names c.tmp = some (s.disk.fileFor c.tmp) := by simp
      refine ⟨by simp, fun p hp => (s.disk.create c.tmp).unshared hp hname, ?_, s.disk.fileFor_lt_create c.tmp⟩
      intro i hi
      exact Option.some.inj (hi.symm.trans hname)
    · rintro fd hfd hin
      exact hfresh fd hin (Option.some.inj hfd)
  · intro p hp
    have hne : p ≠ c.tmp := fun heq => hp (heq ▸ c.path.temporary_tmp c.id)
    rw [← h.files p hp]
    refine Disk.content_of_spares (by simp [Function.update_of_ne hne]) fun i hi => Disk.spares_create ?_
    exact Disk.fileFor_ne (s.disk.allocated hi) fun hname => hne (s.disk.unshared hi hname)

/-- Nor is writing to it. -/
theorem writes (h : Stands s w) (hc : s.calls k = some c) {fd : Nat} {chunk left : Bytes}
    (hstage : c.stage = .writing fd (chunk ++ left)) :
    Stands ((s.onDisk (s.disk.append fd chunk)).setCall k (some { c with stage := .writing fd left })) w := by
  have hfill := h.filling k c fd _ hc hstage
  have hopened : c.opened = some fd := AtomicWrite.opened_eq_some.2 ⟨_, hstage⟩
  have hapart := h.apart k c fd hc hopened
  have hm : Moves s ((s.onDisk (s.disk.append fd chunk)).setCall k (some { c with stage := .writing fd left }))
      (some k) := by
    refine ⟨fun _ _ hk hc => calls_of_setCall hk hc, rfl, ?_, fun _ _ _ _ _ hname => hname⟩
    exact fun i hi => Disk.spares_append chunk fun heq => hapart (heq ▸ hi)
  refine h.moves hm ?_ ?_ rfl
  · intro k' c' hk hc'
    obtain rfl := Option.some.inj hk
    simp only [Writers.calls_setCall, Function.update_self, Option.some.injEq] at hc'
    subst hc'
    refine ⟨fun k' c' hne hc' hid => hne (h.numbered k' k c' c hc' hc hid), h.target k c hc, ?_, ?_⟩
    · rintro fd' left' hstage'
      obtain ⟨rfl, rfl⟩ := Stage.writing.inj hstage'
      refine ⟨?_, hfill.own, hfill.named, hfill.allocated⟩
      simp [← hfill.written]
    · rintro fd' hfd
      obtain rfl : fd = fd' := Option.some.inj hfd
      exact hapart
  · intro p hp
    rw [← h.files p hp]
    refine Disk.content_of_spares rfl fun i hi => Disk.spares_append chunk fun heq => hp ?_
    rw [hfill.own p (heq ▸ hi)]
    exact c.path.temporary_tmp c.id

/-- A file removed is removed, seen from outside. -/
theorem unlinks (h : Stands s w) (path : Path) :
    Stands (s.onDisk (s.disk.unlink path)) (w.put path none) := by
  have hm : Moves s (s.onDisk (s.disk.unlink path)) none := by
    refine ⟨fun _ _ _ hc => hc, rfl, fun _ _ => Disk.spares_unlink, fun _ _ _ _ _ hname => ?_⟩
    exact Disk.spares_unlink.names _ hname
  refine h.moves hm (fun _ _ hk => by cases hk) ?_ rfl
  intro p hp
  by_cases heq : p = path
  · subst heq
    simp [Disk.content_eq_none]
  · rw [w.files_put_of_ne none heq, ← h.files p hp]
    exact Disk.content_of_spares (by simp [Function.update_of_ne heq]) fun _ _ => Disk.spares_unlink

/-- A file renamed replaces the other whole. -/
theorem renames (h : Stands s w) (hc : s.calls k = some c) {fd : Nat} (hstage : c.stage = .writing fd [])
    {d : Disk Path UInt8} (hd : s.disk.rename c.tmp c.path = some d) :
    Stands ((s.onDisk d).setCall k none) (w.put c.path (some c.bytes)) := by
  obtain ⟨i, hi, rfl⟩ := Disk.rename_eq_some hd
  have hfill := h.filling k c fd _ hc hstage
  obtain rfl := hfill.named i hi
  have hapart := h.apart k c i hc (AtomicWrite.opened_eq_some.2 ⟨_, hstage⟩)
  have htarget := h.target k c hc
  have hm : Moves s ((s.onDisk (s.disk.move c.tmp c.path)).setCall k none) (some k) := by
    refine ⟨fun _ _ hk hc => calls_of_setCall hk hc, rfl, ?_, ?_⟩
    · exact fun j hj => Disk.spares_move fun hname => hapart (Option.some.inj (hi.symm.trans hname) ▸ hj)
    · intro k' c' hk hc' j hname
      have hne : c'.tmp ≠ c.tmp :=
        AtomicWrite.tmp_ne fun hid => hk (congrArg some (h.numbered k' k c' c hc' hc hid))
      have hpath : c'.tmp ≠ c.path := fun heq => htarget (heq ▸ c'.path.temporary_tmp c'.id)
      simpa [Function.update_of_ne hne, Function.update_of_ne hpath] using hname
  refine h.moves hm ?_ ?_ rfl
  · intro k' c' hk hc'
    obtain rfl := Option.some.inj hk
    simp at hc'
  · intro p hp
    by_cases heq : p = c.path
    · subst heq
      have hbytes : s.disk.files i = c.bytes := by rw [← hfill.written, List.append_nil]
      rw [Whole.files_put_self]
      refine Disk.content_eq_some.2 ⟨i, by simp [hi], hbytes⟩
    · have hne : p ≠ c.tmp := fun heq => hp (heq ▸ c.path.temporary_tmp c.id)
      rw [w.files_put_of_ne _ heq, ← h.files p hp]
      refine Disk.content_of_spares (by simp [Function.update_of_ne heq, Function.update_of_ne hne]) fun j hj => ?_
      exact Disk.spares_move fun hname => hne (s.disk.unshared hj hname)

/-- A rename that fails is not seen. -/
theorem renameFails (h : Stands s w) (hc : s.calls k = some c) (cause : String) :
    Stands (s.setCall k (some { c with stage := .removing cause })) w := by
  have hm : Moves s (s.setCall k (some { c with stage := .removing cause })) (some k) :=
    .still rfl (fun _ _ hk hc => calls_of_setCall hk hc) rfl
  refine h.moves hm ?_ h.files rfl
  intro k' c' hk hc'
  obtain rfl := Option.some.inj hk
  simp only [Writers.calls_setCall, Function.update_self, Option.some.injEq] at hc'
  subst hc'
  exact ⟨fun k' c' hne hc' hid => hne (h.numbered k' k c' c hc' hc hid), h.target k c hc,
    (fun _ _ hstage => by cases hstage), (fun _ hfd => by cases hfd)⟩

/-- Removing a temporary file changes no other. -/
theorem removes (h : Stands s w) (path : Path) (id : CallId) : Stands (s.onDisk (s.disk.unlink (path.tmp id))) w := by
  have hall := h.unlinks (path.tmp id)
  refine ⟨hall.numbered, hall.target, hall.filling, hall.apart, fun p hp => ?_, hall.readers⟩
  have hne : p ≠ path.tmp id := fun heq => hp (heq ▸ path.temporary_tmp id)
  rw [hall.files p hp, w.files_put_of_ne none hne]

/-! ## Readers -/

/-- A reader goes on, starts or stops. -/
theorem setReader (h : Stands s w) {r : Nat} {rd : Option FileReader} {whole : Option Bytes}
    (hrel : Option.Rel (ReadSoFar s.disk) rd whole)
    (hapart : ∀ x, rd = some x → ∀ k c fd, s.calls k = some c → c.opened = some fd → fd ≠ x.fd) :
    Stands (s.setReader r rd) (w.setReader r whole) where
  numbered := h.numbered
  target := h.target
  filling := h.filling
  apart := by
    rintro k c fd hc hfd (hcall | ⟨r', x, hr, hx⟩)
    · exact h.apart k c fd hc hfd (.inl hcall)
    · by_cases hrr : r' = r
      · subst hrr
        rw [Writers.readers_setReader, Function.update_self] at hr
        exact hapart x hr k c fd hc hfd hx.symm
      · rw [Writers.readers_setReader, Function.update_of_ne hrr] at hr
        exact h.apart k c fd hc hfd (.inr ⟨r', x, hr, hx⟩)
  files := h.files
  readers := by
    intro r'
    unfold Writers.setReader Whole.setReader
    by_cases hrr : r' = r
    · subst hrr
      simpa using hrel
    · simpa [Function.update_of_ne hrr] using h.readers r'

/-- A file opened is the whole file of that moment. -/
theorem opens (h : Stands s w) (r : Nat) {path : Path} (hpath : ¬ path.Temporary) {fd : Nat}
    (hfd : s.disk.names path = some fd) :
    w.files path = some (s.disk.files fd) ∧
      Stands (s.setReader r (some ⟨fd, []⟩)) (w.setReader r (some (s.disk.files fd))) := by
  refine ⟨(h.files path hpath).symm.trans (Disk.content_eq_some.2 ⟨fd, hfd, rfl⟩), h.setReader (.some ?_) ?_⟩
  · refine ⟨rfl, List.nil_prefix, s.disk.allocated hfd, fun p hp => ?_⟩
    rwa [s.disk.unshared hp hfd]
  · rintro x hx k c fd' hc hopened rfl
    obtain rfl := Option.some.inj hx
    obtain ⟨left, hstage⟩ := AtomicWrite.opened_eq_some.1 hopened
    exact hpath ((h.filling k c fd left hc hstage).own path hfd ▸ c.path.temporary_tmp c.id)

/-- A reader reads on in the file it has open. -/
theorem reads (h : Stands s w) {r : Nat} {rd : FileReader} (hr : s.readers r = some rd) (count : Nat) :
    Stands (s.setReader r (some ⟨rd.fd, rd.got ++ ((s.disk.files rd.fd).drop rd.got.length).take count⟩)) w := by
  obtain ⟨whole, hwhole, hread⟩ := h.reading hr
  have hsame : w.setReader r (some whole) = w := by
    unfold Whole.setReader
    rw [← hwhole, Function.update_eq_self]
  rw [← hsame]
  refine h.setReader (.some ⟨hread.holds, ?_, hread.allocated, hread.lasting⟩) ?_
  · obtain ⟨rest, hrest⟩ := hread.got
    rw [hread.holds, ← hrest, List.drop_left]
    exact (List.prefix_append_right_inj _).2 (List.take_prefix _ _)
  · rintro x hx k c fd hc hopened heq
    obtain rfl := Option.some.inj hx
    exact h.apart k c fd hc hopened (.inr ⟨r, rd, hr, heq.symm⟩)

/-- At its end it has read the whole file. -/
theorem ends (h : Stands s w) {r : Nat} {rd : FileReader} (hr : s.readers r = some rd)
    (hend : (s.disk.files rd.fd).drop rd.got.length = []) :
    w.readers r = some rd.got ∧ Stands (s.setReader r none) (w.setReader r none) := by
  obtain ⟨whole, hwhole, hread⟩ := h.reading hr
  have hall : rd.got = whole := by
    have hlength := hread.got.length_le
    rw [hread.holds, List.drop_eq_nil_iff] at hend
    exact hread.got.eq_of_length (by omega)
  exact ⟨hall ▸ hwhole, h.setReader .none fun _ hx => by cases hx⟩

end Stands

/-! ## Runs -/

/-- A step that is not seen leaves the files as they are; one that is seen is what is seen. -/
theorem stands_simulates :
    Simulates (Guarded Unwrapped WriterStep) WholeStep WriterAction.visible Stands := by
  refine ⟨fun s a t w h hstep hv => ?_, fun s a t w b h hstep hv => ?_⟩
  · obtain ⟨hg, hstep⟩ := hstep
    cases hstep with
    | starts _ => exact h.setProc _ _
    | dies pid => exact h.dies pid
    | calls _ _ htarget bytes => exact (h.setProc _ _).calls _ hg htarget bytes
    | creates hc _ => exact h.creates hc
    | createFails _ _ _ => exact h.returns _
    | writes hc hstage => exact h.writes hc hstage
    | writeFails _ _ _ _ => exact h.returns _
    | renames _ _ _ => cases hv
    | renameFails hc _ cause => exact h.renameFails hc cause
    | @removes _ c _ _ _ fault =>
      refine Stands.returns ?_ _
      split
      · exact h.removes c.path c.id
      · exact h
    | unlinks _ => cases hv
    | opens _ _ _ => cases hv
    | misses _ _ => cases hv
    | reads hr count => exact h.reads hr count
    | ends _ _ => cases hv
  · cases hstep.2 with
    | renames hc hstage hd =>
      obtain rfl := Option.some.inj hv
      exact ⟨_, .replaces _ _, h.renames hc hstage hd⟩
    | unlinks path =>
      obtain rfl := Option.some.inj hv
      exact ⟨_, .unlinks path, h.unlinks path⟩
    | opens hr hpath hfd =>
      obtain rfl := Option.some.inj hv
      obtain ⟨hfile, hopen⟩ := h.opens _ hpath hfd
      exact ⟨_, .opens (h.not_reading hr) hfile, hopen⟩
    | misses hpath hname =>
      obtain rfl := Option.some.inj hv
      refine ⟨w, .misses ?_, h⟩
      rw [← h.files _ hpath]
      exact Disk.content_eq_none.2 hname
    | ends hr hend =>
      obtain rfl := Option.some.inj hv
      obtain ⟨hread, hend⟩ := h.ends hr hend
      exact ⟨_, .ends hread, hend⟩
    | _ => cases hv

/-- Nobody writes, and nobody reads. -/
structure Writers.Quiet (s : Writers) : Prop where
  calls : ∀ k, s.calls k = none
  readers : ∀ r, s.readers r = none

/-- The files of a disk. -/
def Writers.whole (s : Writers) : Whole := ⟨s.disk.content, fun _ => none⟩

/-- Before any call the disk stands for itself. -/
theorem Writers.Quiet.stands {s : Writers} (h : s.Quiet) : Stands s s.whole where
  numbered := fun k _ _ _ hc _ _ => by rw [h.calls k] at hc; cases hc
  target := fun k _ hc => by rw [h.calls k] at hc; cases hc
  filling := fun k _ _ _ hc _ => by rw [h.calls k] at hc; cases hc
  apart := fun k _ _ hc _ => by rw [h.calls k] at hc; cases hc
  files := fun _ _ => rfl
  readers := fun r => by rw [h.readers r]; exact .none

/-- However the calls of any processes are interleaved, what is seen from outside is files replaced, removed and read
whole, each at one moment. -/
theorem writes_atomic {s t : Writers} {as : List WriterAction} (hs : s.Quiet)
    (h : Run (Guarded Unwrapped WriterStep) s as t) :
    ∃ w, Run WholeStep s.whole (as.filterMap WriterAction.visible) w ∧
      ∀ p, ¬ p.Temporary → t.disk.content p = w.files p := by
  obtain ⟨w, hrun, hw⟩ := stands_simulates.run h hs.stands
  exact ⟨w, hrun, hw.files⟩

/-! ## Manifests -/

/-- `Manifest::path`, under the directory for manifests. -/
def manifestAt (root contract : String) : Path := ⟨root ++ "/_peql/manifests", manifestFile contract⟩

/-- A directory, as the files on the disk have its manifests. -/
def Whole.dir {φ : Type} (w : Whole) (decode : Bytes → Recorded Manifest) (root : String) (files : List φ) :
    Dir φ where
  files := files
  manifests file := ((w.files ⟨root ++ "/_peql/manifests", file⟩).map decode).getD .absent

section Manifests

variable {φ : Type} (w : Whole) (decode : Bytes → Recorded Manifest) (root : String) (files : List φ)

/-- No manifest is kept in a temporary file. -/
theorem not_temporary_manifestAt (contract : String) : ¬ (manifestAt root contract).Temporary := by
  intro h
  have hsuffix : ".tmp".toList <:+ (encodeName contract).toList ++ ".json".toList := by
    rw [← String.toList_append]
    exact h
  obtain ⟨front, heq⟩ := hsuffix
  have hlast := congrArg List.getLast? heq
  simp at hlast

/-- A file replaced changes one manifest. -/
theorem Whole.dir_put (contract : String) (content : Option Bytes) :
    ((w.put (manifestAt root contract) content).dir decode root files).manifests = Function.update
      (w.dir decode root files).manifests (manifestFile contract) ((content.map decode).getD .absent) := by
  funext file
  by_cases hfile : file = manifestFile contract
  · subst hfile
    simp [Whole.dir, Whole.put, manifestAt]
  · have hne : (⟨root ++ "/_peql/manifests", file⟩ : Path) ≠ manifestAt root contract :=
      fun heq => hfile (congrArg Path.name heq)
    rw [Function.update_of_ne hfile]
    simp [Whole.dir, w.files_put_of_ne content hne]

/-- A manifest's file replaced is the manifest saved. -/
theorem Whole.dir_save {m : Manifest} {bytes : Bytes} (hbytes : decode bytes = .facts m) :
    (w.put (manifestAt root m.contract) (some bytes)).dir decode root files = (w.dir decode root files).save m := by
  have hmanifests := w.dir_put decode root files m.contract (some bytes)
  rw [Option.map_some, Option.getD_some, hbytes] at hmanifests
  unfold Dir.save
  rw [← hmanifests]
  rfl

/-- Its file removed is the manifest removed. -/
theorem Whole.dir_remove (contract : String) :
    (w.put (manifestAt root contract) none).dir decode root files = (w.dir decode root files).remove contract := by
  have hmanifests := w.dir_put decode root files contract none
  rw [Option.map_none, Option.getD_none] at hmanifests
  unfold Dir.remove
  rw [← hmanifests]
  rfl

end Manifests

/-! ## Temporary files -/

/-- A temporary file is that of a call that has created it. -/
structure Tidy (s : Writers) : Prop where
  target : ∀ k c, s.calls k = some c → ¬ c.path.Temporary
  created : ∀ p i, p.Temporary → s.disk.names p = some i →
    ∃ k c, s.calls k = some c ∧ c.stage ≠ .creating ∧ p = c.tmp

/-- No process dies with calls under way, and none of its calls fails to write or to remove. -/
def Clears (s : Writers) : WriterAction → Prop
  | .dies pid => ∀ k c, s.calls k = some c → c.id.1 ≠ pid
  | .writeFails _ _ => False
  | .removes _ fault => fault = none
  | _ => True

namespace Tidy

variable {s t : Writers} {k : Nat} {c : AtomicWrite}

/-- A call goes on, or returns: a temporary file is its own, or was there and is not. -/
theorem setCall (h : Tidy s) {c' : Option AtomicWrite} {d : Disk Path UInt8}
    (htarget : ∀ x, c' = some x → ¬ x.path.Temporary)
    (hd : ∀ p i, p.Temporary → d.names p = some i → (∃ x, c' = some x ∧ x.stage ≠ .creating ∧ p = x.tmp) ∨
      (∃ j, s.disk.names p = some j) ∧ ∀ x, s.calls k = some x → x.stage ≠ .creating → p ≠ x.tmp) :
    Tidy ((s.onDisk d).setCall k c') where
  target := by
    intro k' x hx
    by_cases hk : k' = k
    · subst hk
      rw [Writers.calls_setCall, Function.update_self] at hx
      exact htarget x hx
    · rw [Writers.calls_setCall, Function.update_of_ne hk] at hx
      exact h.target k' x hx
  created := by
    intro p i hp hname
    rcases hd p i hp hname with ⟨x, rfl, hstage, heq⟩ | ⟨⟨j, hj⟩, hother⟩
    · exact ⟨k, x, by simp, hstage, heq⟩
    · obtain ⟨k', x, hx, hstage, heq⟩ := h.created p j hp hj
      have hk : k' ≠ k := by
        rintro rfl
        exact hother x hx hstage heq
      refine ⟨k', x, ?_, hstage, heq⟩
      rw [Writers.calls_setCall, Function.update_of_ne hk]
      exact hx

/-- Names that come from before are still those of calls. -/
theorem onDisk (h : Tidy s) {d : Disk Path UInt8} (hd : ∀ p i, d.names p = some i → s.disk.names p = some i) :
    Tidy (s.onDisk d) :=
  ⟨h.target, fun p i hp hname => h.created p i hp (hd p i hname)⟩

/-- A call that has created its file goes on with it. -/
theorem goes_on (h : Tidy s) (hc : s.calls k = some c) {d : Disk Path UInt8} (hd : d.names = s.disk.names)
    {stage : Stage} (hstage : stage ≠ .creating) :
    Tidy ((s.onDisk d).setCall k (some { c with stage := stage })) := by
  refine h.setCall (fun x hx => ?_) fun p i hp hname => ?_
  · obtain rfl := Option.some.inj hx
    exact h.target k c hc
  · by_cases heq : p = c.tmp
    · exact .inl ⟨_, rfl, hstage, heq⟩
    · refine .inr ⟨⟨i, hd ▸ hname⟩, fun x hx _ => ?_⟩
      rw [Option.some.inj (hx.symm.trans hc)]
      exact heq

/-- A call that has not created its file, or has none any more, returns. -/
theorem returns (h : Tidy s) {d : Disk Path UInt8} (hd : ∀ p i, p.Temporary → d.names p = some i →
      (∃ j, s.disk.names p = some j) ∧ ∀ x, s.calls k = some x → x.stage ≠ .creating → p ≠ x.tmp) :
    Tidy ((s.onDisk d).setCall k none) :=
  h.setCall (fun _ hx => by cases hx) fun p i hp hname => .inr (hd p i hp hname)

/-- A step whose failures clear up keeps the disk tidy. -/
theorem step {a : WriterAction} (h : Tidy s) (hclear : Clears s a) (hstep : WriterStep s a t) : Tidy t := by
  cases hstep with
  | starts _ => exact ⟨h.target, h.created⟩
  | dies pid =>
    have hall : ∀ k, (s.die pid).calls k = s.calls k := by
      intro k
      unfold Writers.die
      cases hk : s.calls k with
      | none => simp [hk]
      | some c => simpa [hk] using hclear k c hk
    exact ⟨fun k c hc => h.target k c ((hall k).symm.trans hc), fun p i hp hname => by
      obtain ⟨k, c, hc, hrest⟩ := h.created p i hp hname
      exact ⟨k, c, (hall k).trans hc, hrest⟩⟩
  | @calls k hk pid n _ path htarget bytes =>
    refine (show Tidy (s.setProc pid (some (n + 1))) from ⟨h.target, h.created⟩).setCall (d := s.disk) ?_ ?_
    · intro x hx
      obtain rfl := Option.some.inj hx
      exact htarget
    · intro p i _ hname
      exact .inr ⟨⟨i, hname⟩, fun x hx _ => by cases hk.symm.trans hx⟩
  | @creates k c hc hstage =>
    refine h.setCall (fun x hx => ?_) fun p i _ hname => ?_
    · obtain rfl := Option.some.inj hx
      exact h.target k c hc
    · by_cases heq : p = c.tmp
      · exact .inl ⟨_, rfl, (fun hs => by cases hs), heq⟩
      · refine .inr ⟨⟨i, ?_⟩, fun x hx hs => ?_⟩
        · simpa [Function.update_of_ne heq] using hname
        · rw [Option.some.inj (hx.symm.trans hc)] at hs
          exact absurd hstage hs
  | @createFails k c hc hstage _ =>
    refine h.returns (d := s.disk) fun p i _ hname => ⟨⟨i, hname⟩, fun x hx hs => ?_⟩
    rw [Option.some.inj (hx.symm.trans hc)] at hs
    exact absurd hstage hs
  | writes hc _ =>
    refine h.goes_on (d := s.disk.append _ _) hc rfl ?_
    rintro ⟨⟩
  | writeFails _ _ _ _ => exact hclear.elim
  | @renames k c _ d hc _ hd =>
    obtain ⟨i, -, rfl⟩ := Disk.rename_eq_some hd
    refine h.returns fun p j hp hname => ?_
    have hpath : p ≠ c.path := fun heq => h.target k c hc (heq ▸ hp)
    have hne : p ≠ c.tmp := by
      rintro rfl
      simp [Function.update_of_ne hpath] at hname
    refine ⟨⟨j, by simpa [Function.update_of_ne hpath, Function.update_of_ne hne] using hname⟩, fun x hx _ => ?_⟩
    rwa [Option.some.inj (hx.symm.trans hc)]
  | renameFails hc _ cause =>
    refine h.goes_on (d := s.disk) hc rfl ?_
    rintro ⟨⟩
  | @removes k c _ hc _ fault =>
    obtain rfl : fault = none := hclear
    refine h.returns fun p i _ hname => ?_
    have hne : p ≠ c.tmp := by
      rintro rfl
      simp at hname
    refine ⟨⟨i, Disk.spares_unlink.names p hname⟩, fun x hx _ => ?_⟩
    rwa [Option.some.inj (hx.symm.trans hc)]
  | unlinks path => exact h.onDisk fun p i hname => Disk.spares_unlink.names p hname
  | opens _ _ _ => exact ⟨h.target, h.created⟩
  | misses _ _ => exact h
  | reads _ _ => exact ⟨h.target, h.created⟩
  | ends _ _ => exact ⟨h.target, h.created⟩

end Tidy

/-- The temporary files are those of calls under way, unless a process died, a write failed or a removal did. -/
theorem temporaries_of_calls {s t : Writers} {as : List WriterAction} (hs : s.Quiet)
    (hclean : ∀ p, p.Temporary → s.disk.names p = none) (h : Run (Guarded Clears WriterStep) s as t) {p : Path}
    (hp : p.Temporary) {i : Nat} (hname : t.disk.names p = some i) :
    ∃ k c, t.calls k = some c ∧ c.stage ≠ .creating ∧ p = c.tmp := by
  have hstart : Tidy s := by
    refine ⟨fun k c hc => ?_, fun p i hp hname => ?_⟩
    · rw [hs.calls k] at hc
      cases hc
    · rw [hclean p hp] at hname
      cases hname
  exact (h.inv_of_all (fun _ _ _ hi hg hstep => hi.step hg hstep) hstart).created p i hp hname

/-! ## Two writers of one file -/

def emptyDisk : Disk Path UInt8 where
  names := fun _ => none
  files := fun _ => []
  next := 0
  allocated := fun h => by cases h
  unshared := fun h => by cases h

def atRest : Writers := ⟨emptyDisk, fun _ => none, fun _ => none, fun _ => none⟩

theorem atRest_quiet : atRest.Quiet := ⟨fun _ => rfl, fun _ => rfl⟩

/-- The ledger's file. -/
def ledgerPath : Path := ⟨"/var/peql", "budgets.json"⟩

/-- Two processes write the ledger at once; the second is done first, and who read it then goes on reading what it
wrote. -/
def race : List WriterAction :=
  [.starts 1, .starts 2, .calls 0 (1, 0) ledgerPath [10, 20], .calls 1 (2, 0) ledgerPath [30], .creates 0, .creates 1,
    .writes 0 [10], .writes 1 [30], .renames 1 ledgerPath [30], .opens 0 ledgerPath, .writes 0 [20],
    .renames 0 ledgerPath [10, 20], .reads 0 4096, .ends 0 [30]]

/-- Two processes write one ledger, and a third reads it meanwhile. -/
theorem race_run : ∃ t, Run (Guarded (fun s a => Unwrapped s a ∧ Clears s a) WriterStep) atRest race t := by
  have hquiet : ∀ k c, atRest.calls k = some c → c.id ≠ ((1, 0) : CallId) := fun _ _ hc => by cases hc
  have hother : ∀ k c, Function.update atRest.calls 0 (some ⟨(1, 0), ledgerPath, [10, 20], .creating⟩) k = some c →
      c.id ≠ ((2, 0) : CallId) := by
    intro k c hc
    by_cases hk : k = 0
    · subst hk
      rw [Function.update_self] at hc
      obtain rfl := Option.some.inj hc
      decide
    · rw [Function.update_of_ne hk] at hc
      cases hc
  refine Run.ahead ⟨⟨trivial, trivial⟩, .starts rfl⟩ (Run.ahead ⟨⟨trivial, trivial⟩, .starts rfl⟩ ?_)
  refine Run.ahead ⟨⟨hquiet, trivial⟩, .calls rfl rfl (by decide) _⟩ ?_
  refine Run.ahead ⟨⟨hother, trivial⟩, .calls rfl rfl (by decide) _⟩ ?_
  refine Run.ahead ⟨⟨trivial, trivial⟩, .creates rfl rfl⟩ (Run.ahead ⟨⟨trivial, trivial⟩, .creates rfl rfl⟩ ?_)
  refine Run.ahead ⟨⟨trivial, trivial⟩, .writes rfl (rfl : Stage.writing 0 ([10] ++ [20]) = _)⟩ ?_
  refine Run.ahead ⟨⟨trivial, trivial⟩, .writes rfl (rfl : Stage.writing 1 ([30] ++ []) = _)⟩ ?_
  refine Run.ahead ⟨⟨trivial, trivial⟩,
    .renames (show _ = some ⟨(2, 0), ledgerPath, [30], .writing 1 []⟩ from rfl) rfl rfl⟩ ?_
  refine Run.ahead ⟨⟨trivial, trivial⟩, .opens rfl (by decide) rfl⟩ ?_
  refine Run.ahead ⟨⟨trivial, trivial⟩, .writes rfl (rfl : Stage.writing 0 ([20] ++ []) = _)⟩ ?_
  refine Run.ahead ⟨⟨trivial, trivial⟩,
    .renames (show _ = some ⟨(1, 0), ledgerPath, [10, 20], .writing 0 []⟩ from rfl) rfl rfl⟩ ?_
  refine Run.ahead ⟨⟨trivial, trivial⟩, .reads (show _ = some ⟨1, []⟩ from rfl) 4096⟩ ?_
  exact Run.ahead ⟨⟨trivial, trivial⟩, .ends (show _ = some ⟨1, [30]⟩ from rfl) rfl⟩ ⟨_, .nil _⟩

theorem writes_atomic_race : ∃ (t : Writers) (w : Whole), Run WholeStep atRest.whole
    [.replaces ledgerPath [30], .opens 0 ledgerPath, .replaces ledgerPath [10, 20], .ends 0 [30]] w ∧
    ∀ p, ¬ p.Temporary → t.disk.content p = w.files p := by
  obtain ⟨t, h⟩ := race_run
  obtain ⟨w, hrun, hfiles⟩ := writes_atomic atRest_quiet (h.weaken fun _ _ hg => hg.1)
  exact ⟨t, w, hrun, hfiles⟩

theorem temporaries_of_calls_race : ∃ t, Run (Guarded Clears WriterStep) atRest race t ∧
    ∀ p i, p.Temporary → t.disk.names p = some i →
      ∃ k c, t.calls k = some c ∧ c.stage ≠ .creating ∧ p = c.tmp := by
  obtain ⟨t, h⟩ := race_run
  have hclears : Run (Guarded Clears WriterStep) atRest race t := h.weaken fun _ _ hg => hg.2
  exact ⟨t, hclears, fun p i hp hname => temporaries_of_calls atRest_quiet (fun _ _ => rfl) hclears hp hname⟩

end Peql
