import Mathlib.Algebra.BigOperators.Group.List.Basic
import Mathlib.Data.List.Induction
import Peql.Cache

/-!
# The cache's accounting

The cache counts its bytes in a machine word: each addition and each subtraction of its operations is here one that may
fail (`applyChecked`), and in a cache whose count is right (`Accounted`) none does, each operation gives what it gives
without a word (`applyChecked_eq`), and the count stays right (`Accounted.apply`). What is held was put under its key,
and nothing since has removed or replaced it (`PutSince`).
-/

namespace Peql

namespace QueryCache

/-! ## Operations over a word -/

/-- `-=` on `usize`. -/
def less (total bytes : Nat) : Option Nat := if bytes ≤ total then some (total - bytes) else none

section Checked

variable (word : Nat)

/-- `+` on `usize`. -/
def more (total bytes : Nat) : Option Nat := if total + bytes < word then some (total + bytes) else none

/-- `lru.pop(key)`, with the entry's bytes given back. -/
def dropChecked (c : QueryCache) (key : CacheKey) : Option QueryCache :=
  match c.held key with
  | some e => do
    let total ← less c.totalBytes e.bytes
    some { c with entries := c.entries.filter fun k => k.1 ≠ key, totalBytes := total }
  | none => some c

def getChecked (c : QueryCache) (now : Int) (key : CacheKey) : Option (Option (List Batch) × QueryCache) :=
  (if c.expired now key then c.dropChecked key else some c).map fun c =>
    match c.held key with
    | some e =>
      (some e.batches,
        { c with entries := (key, e) :: c.entries.filter fun k => k.1 ≠ key, hits := c.hits + 1 })
    | none => (none, { c with misses := c.misses + 1 })

def shrinkChecked (c : QueryCache) (bytes : Nat) : List (CacheKey × CacheEntry) → Option QueryCache
  | [] => do
    let _ ← more word c.totalBytes bytes
    some { c with entries := [] }
  | e :: older => do
    let total ← more word c.totalBytes bytes
    if c.maxBytes < total then
      let left ← less c.totalBytes e.2.bytes
      ({ c with totalBytes := left } : QueryCache).shrinkChecked bytes older
    else some { c with entries := (e :: older).reverse }

/-- `lru.push`, the bytes of the entry it replaces or evicts given back, and the entry's own added. -/
def pushChecked (c : QueryCache) (key : CacheKey) (e : CacheEntry) : Option QueryCache :=
  match c.held key with
  | some old => do
    let left ← less c.totalBytes old.bytes
    let total ← more word left e.bytes
    some { c with entries := (key, e) :: c.entries.filter fun k => k.1 ≠ key, totalBytes := total }
  | none =>
    if c.entries.length < max c.maxEntries 1 then do
      let total ← more word c.totalBytes e.bytes
      some { c with entries := (key, e) :: c.entries, totalBytes := total }
    else do
      let left ← less c.totalBytes ((c.entries.getLast?.map fun l => l.2.bytes).getD 0)
      let total ← more word left e.bytes
      some { c with entries := (key, e) :: c.entries.dropLast, totalBytes := total }

def putChecked (c : QueryCache) (now : Int) (key : CacheKey) (batches : List Batch) (bytes : Nat) : Option QueryCache :=
  if c.maxBytes < bytes then some c
  else do
    let c ← c.shrinkChecked word bytes c.entries.reverse
    c.pushChecked word key ⟨batches, bytes, now⟩

def invalidateContractChecked (c : QueryCache) (contract : String) : Option QueryCache :=
  ((c.entries.map Prod.fst).filter fun k => k.contracts.contains contract).foldlM dropChecked c

end Checked

end QueryCache

inductive CacheOp
  | put (key : CacheKey) (batches : List Batch) (bytes : Nat)
  | get (key : CacheKey)
  | invalidateContract (contract : String)
  | invalidateAll

namespace CacheOp

def isGet : CacheOp → Bool
  | .get _ => true
  | _ => false

/-- An invalidation of what is held under a key. -/
def Invalidates (key : CacheKey) : CacheOp → Prop
  | .invalidateContract contract => contract ∈ key.contracts
  | .invalidateAll => True
  | _ => False

/-- A put that replaces what is held under a key, in a cache of so many bytes. -/
def Replaces (maxBytes : Nat) (key : CacheKey) : CacheOp → Prop
  | .put k _ bytes => k = key ∧ bytes ≤ maxBytes
  | _ => False

end CacheOp

namespace QueryCache

/-- An operation: what it returns of what is held, and the cache it leaves. -/
def apply (c : QueryCache) (now : Int) : CacheOp → Option (List Batch) × QueryCache
  | .put key batches bytes => (none, c.put now key batches bytes)
  | .get key => c.get now key
  | .invalidateContract contract => (none, c.invalidateContract contract)
  | .invalidateAll => (none, c.invalidateAll)

def applyChecked (word : Nat) (c : QueryCache) (now : Int) : CacheOp → Option (Option (List Batch) × QueryCache)
  | .put key batches bytes => (c.putChecked word now key batches bytes).map fun c => (none, c)
  | .get key => c.getChecked now key
  | .invalidateContract contract => (c.invalidateContractChecked contract).map fun c => (none, c)
  | .invalidateAll => some (none, c.invalidateAll)

/-- Operations one after another, each at a time. -/
def runChecked (word : Nat) (c : QueryCache) (ops : List (Int × CacheOp)) : Option QueryCache :=
  ops.foldlM (fun c op => (c.applyChecked word op.1 op.2).map Prod.snd) c

/-- The bytes of some entries. -/
def bytesOf (entries : List (CacheKey × CacheEntry)) : Nat := (entries.map fun e => e.2.bytes).sum

/-- A cache whose count is right: one entry to a key, their bytes counted, and no more of either than it takes. -/
structure Accounted (c : QueryCache) : Prop where
  nodup : (c.entries.map Prod.fst).Nodup
  bytes : c.totalBytes = bytesOf c.entries
  within : c.totalBytes ≤ c.maxBytes
  room : c.entries.length ≤ max c.maxEntries 1

/-! ## Entries that go -/

/-- The entry held under a key, and the others. -/
theorem perm_held {entries : List (CacheKey × CacheEntry)} {key : CacheKey} {e : CacheEntry}
    (hnodup : (entries.map Prod.fst).Nodup) (h : entries.lookup key = some e) :
    entries.Perm ((key, e) :: entries.filter fun k => k.1 ≠ key) := by
  induction entries with
  | nil => cases h
  | cons x xs ih =>
    obtain ⟨k, v⟩ := x
    obtain ⟨hfresh, hnodup⟩ := List.nodup_cons.1 hnodup
    by_cases hk : key = k
    · subst hk
      rw [List.lookup_cons, beq_self_eq_true] at h
      obtain rfl := Option.some.inj h
      rw [List.filter_cons_of_neg (by simp), List.filter_eq_self.2]
      intro y hy
      simp only [decide_eq_true_eq]
      intro hkey
      exact hfresh (List.mem_map.2 ⟨y, hy, hkey⟩)
    · rw [List.lookup_cons, beq_eq_false_iff_ne.2 hk] at h
      rw [List.filter_cons_of_pos (by simpa using Ne.symm hk)]
      exact ((ih hnodup h).cons _).trans (.swap _ _ _)

/-- The bytes do not depend on the order. -/
theorem bytesOf_perm {xs ys : List (CacheKey × CacheEntry)} (h : xs.Perm ys) : bytesOf xs = bytesOf ys :=
  (h.map _).sum_eq

@[simp] theorem bytesOf_nil : bytesOf [] = 0 := rfl

@[simp] theorem bytesOf_cons (x : CacheKey × CacheEntry) (xs : List (CacheKey × CacheEntry)) :
    bytesOf (x :: xs) = x.2.bytes + bytesOf xs := rfl

theorem bytesOf_append (xs ys : List (CacheKey × CacheEntry)) : bytesOf (xs ++ ys) = bytesOf xs + bytesOf ys := by
  simp [bytesOf]

theorem bytesOf_reverse (xs : List (CacheKey × CacheEntry)) : bytesOf xs.reverse = bytesOf xs :=
  bytesOf_perm xs.reverse_perm

namespace Accounted

variable {c : QueryCache}

/-- The bytes of the entry under a key are counted. -/
theorem bytes_held (h : c.Accounted) {key : CacheKey} {e : CacheEntry} (he : c.held key = some e) :
    c.totalBytes = e.bytes + bytesOf (c.entries.filter fun k => k.1 ≠ key) := by
  rw [h.bytes, bytesOf_perm (perm_held h.nodup he), bytesOf_cons]

/-- What is left without one key. -/
theorem nodup_filter (h : c.Accounted) (key : CacheKey) :
    ((c.entries.filter fun k => k.1 ≠ key).map Prod.fst).Nodup :=
  h.nodup.sublist (List.filter_sublist.map _)

/-- A key dropped is gone. -/
theorem notMem_filter (c : QueryCache) (key : CacheKey) : key ∉ (c.entries.filter fun k => k.1 ≠ key).map Prod.fst := by
  intro hmem
  obtain ⟨e, he, hkey⟩ := List.mem_map.1 hmem
  simpa [hkey] using (List.mem_filter.1 he).2

/-- One entry goes with it. -/
theorem length_filter (h : c.Accounted) {key : CacheKey} {e : CacheEntry} (he : c.held key = some e) :
    (c.entries.filter fun k => k.1 ≠ key).length + 1 = c.entries.length := by
  rw [(perm_held h.nodup he).length_eq, List.length_cons]

/-! ### Dropping a key -/

/-- Dropping keeps the account. -/
theorem drop (h : c.Accounted) (key : CacheKey) : (c.drop key).Accounted := by
  unfold QueryCache.drop
  cases he : c.held key with
  | none => exact h
  | some e =>
    have hbytes := h.bytes_held he
    have hlength := h.length_filter he
    have hwithin := h.within
    have hroom := h.room
    refine ⟨h.nodup_filter key, ?_, ?_, ?_⟩
    · show c.totalBytes - e.bytes = bytesOf (c.entries.filter fun k => k.1 ≠ key)
      omega
    · show c.totalBytes - e.bytes ≤ c.maxBytes
      omega
    · show (c.entries.filter fun k => k.1 ≠ key).length ≤ max c.maxEntries 1
      omega

/-- The subtraction does not underflow. -/
theorem dropChecked_eq (h : c.Accounted) (key : CacheKey) : c.dropChecked key = some (c.drop key) := by
  unfold QueryCache.dropChecked QueryCache.drop
  cases he : c.held key with
  | none => rfl
  | some e =>
    have hle : e.bytes ≤ c.totalBytes := by
      have := h.bytes_held he
      omega
    simp only [less, if_pos hle]
    rfl

/-! ### Looking a key up -/

/-- Looking up keeps the account. -/
theorem get (h : c.Accounted) (now : Int) (key : CacheKey) : (c.get now key).2.Accounted := by
  have hkept : (if c.expired now key then c.drop key else c).Accounted := by
    split
    · exact h.drop key
    · exact h
  unfold QueryCache.get
  dsimp only
  generalize (if c.expired now key then c.drop key else c) = d at hkept
  cases he : d.held key with
  | none => exact ⟨hkept.nodup, hkept.bytes, hkept.within, hkept.room⟩
  | some e =>
    have hperm := perm_held hkept.nodup he
    refine ⟨?_, ?_, hkept.within, ?_⟩
    · exact (hperm.map Prod.fst).nodup_iff.1 hkept.nodup
    · exact hkept.bytes.trans (bytesOf_perm hperm)
    · exact hperm.length_eq ▸ hkept.room

/-- It does no arithmetic that overflows. -/
theorem getChecked_eq (h : c.Accounted) (now : Int) (key : CacheKey) : c.getChecked now key = some (c.get now key) := by
  have hkept : (if c.expired now key then c.dropChecked key else some c) =
      some (if c.expired now key then c.drop key else c) := by
    split
    · exact h.dropChecked_eq key
    · rfl
  unfold QueryCache.getChecked QueryCache.get
  rw [hkept]
  rfl

end Accounted

/-! ### Making room -/

section Room

variable {word bytes : Nat}

/-- Room is made for an entry of so many bytes. -/
theorem shrink_bytes {c : QueryCache} {older : List (CacheKey × CacheEntry)} (h : c.totalBytes = bytesOf older)
    (hbytes : bytes ≤ c.maxBytes) : (c.shrink bytes older).totalBytes = bytesOf (c.shrink bytes older).entries ∧
      (c.shrink bytes older).totalBytes + bytes ≤ c.maxBytes := by
  induction older generalizing c with
  | nil =>
    have hzero : c.totalBytes = 0 := h
    exact ⟨h, by rw [shrink, hzero]; omega⟩
  | cons e older ih =>
    unfold shrink
    split
    · refine ih ?_ hbytes
      rw [bytesOf_cons] at h
      show c.totalBytes - e.2.bytes = bytesOf older
      omega
    next hfits =>
      refine ⟨?_, by show c.totalBytes + bytes ≤ c.maxBytes; omega⟩
      show c.totalBytes = bytesOf (e :: older).reverse
      rw [bytesOf_reverse, h]

/-- Nor does making room. -/
theorem shrinkChecked_eq {c : QueryCache} {older : List (CacheKey × CacheEntry)} (h : c.totalBytes = bytesOf older)
    (hwithin : c.totalBytes ≤ c.maxBytes) (hbytes : bytes ≤ c.maxBytes) (hword : 2 * c.maxBytes < word) :
    c.shrinkChecked word bytes older = some (c.shrink bytes older) := by
  have hmore : more word c.totalBytes bytes = some (c.totalBytes + bytes) := if_pos (by omega)
  induction older generalizing c with
  | nil =>
    unfold shrinkChecked shrink
    rw [hmore]
    rfl
  | cons e older ih =>
    rw [bytesOf_cons] at h
    have hless : less c.totalBytes e.2.bytes = some (c.totalBytes - e.2.bytes) := if_pos (by omega)
    unfold shrinkChecked shrink
    rw [hmore]
    dsimp only [Option.bind_eq_bind, Option.bind_some]
    split
    · rw [hless, Option.bind_some]
      refine ih ?_ ?_ hbytes hword (if_pos ?_)
      · show c.totalBytes - e.2.bytes = bytesOf older
        omega
      · show c.totalBytes - e.2.bytes ≤ c.maxBytes
        omega
      · show c.totalBytes - e.2.bytes + bytes < word
        omega
    · rfl

end Room

/-! ## The settings, and the gets made -/

/-- A cache as operations that made `n` gets leave it: with the settings it had, and its gets counted. -/
structure After (n : Nat) (c d : QueryCache) : Prop where
  maxEntries : d.maxEntries = c.maxEntries
  maxBytes : d.maxBytes = c.maxBytes
  ttl : d.ttl = c.ttl
  gets : d.hits + d.misses = c.hits + c.misses + n

namespace After

variable {c d e : QueryCache} {m n : Nat}

theorem refl (c : QueryCache) : After 0 c c := ⟨rfl, rfl, rfl, rfl⟩

theorem trans (h : After m c d) (h' : After n d e) : After (m + n) c e where
  maxEntries := h'.maxEntries.trans h.maxEntries
  maxBytes := h'.maxBytes.trans h.maxBytes
  ttl := h'.ttl.trans h.ttl
  gets := by rw [h'.gets, h.gets, Nat.add_assoc]

theorem drop (c : QueryCache) (key : CacheKey) : After 0 c (c.drop key) := by
  unfold QueryCache.drop
  cases c.held key <;> exact ⟨rfl, rfl, rfl, rfl⟩

theorem drops (c : QueryCache) (keys : List CacheKey) : After 0 c (keys.foldl QueryCache.drop c) := by
  induction keys generalizing c with
  | nil => exact refl c
  | cons key keys ih => exact (drop c key).trans (ih _)

theorem get (c : QueryCache) (now : Int) (key : CacheKey) : After 1 c (c.get now key).2 := by
  have hkept : After 0 c (if c.expired now key then c.drop key else c) := by
    split
    · exact drop c key
    · exact refl c
  refine (show (0 + 1) = 1 from rfl) ▸ hkept.trans ?_
  unfold QueryCache.get
  dsimp only
  cases (if c.expired now key then c.drop key else c).held key with
  | none => exact ⟨rfl, rfl, rfl, rfl⟩
  | some e => exact ⟨rfl, rfl, rfl, by dsimp only; omega⟩

/-- Making room loses entries only. -/
theorem shrink (c : QueryCache) (bytes : Nat) (older : List (CacheKey × CacheEntry)) :
    After 0 c (c.shrink bytes older) := by
  induction older generalizing c with
  | nil => exact ⟨rfl, rfl, rfl, rfl⟩
  | cons x older ih =>
    unfold QueryCache.shrink
    split
    · exact (show After 0 c { c with totalBytes := c.totalBytes - x.2.bytes } from ⟨rfl, rfl, rfl, rfl⟩).trans (ih _)
    · exact ⟨rfl, rfl, rfl, rfl⟩

/-- An entry pushed replaces its own, or pushes the last one out. -/
theorem push (c : QueryCache) (key : CacheKey) (x : CacheEntry) : After 0 c (c.push key x) := by
  unfold QueryCache.push
  cases c.held key with
  | some old => exact ⟨rfl, rfl, rfl, rfl⟩
  | none =>
    dsimp only
    split <;> exact ⟨rfl, rfl, rfl, rfl⟩

/-- A put is what comes of its parts. -/
theorem put (c : QueryCache) (now : Int) (key : CacheKey) (batches : List Batch) (bytes : Nat) :
    After 0 c (c.put now key batches bytes) := by
  unfold QueryCache.put
  split
  · exact refl c
  · exact (shrink c bytes _).trans (push _ key _)

/-- An operation counts itself when it is a get. -/
theorem apply (c : QueryCache) (now : Int) (op : CacheOp) : After (if op.isGet then 1 else 0) c (c.apply now op).2 := by
  cases op with
  | put key batches bytes => exact put c now key batches bytes
  | get key => exact get c now key
  | invalidateContract contract => exact drops c _
  | invalidateAll => exact ⟨rfl, rfl, rfl, rfl⟩

end After

/-! ## Putting an answer -/

namespace Accounted

variable {c : QueryCache} {word : Nat}

/-- Making room keeps the account and leaves the room asked for. -/
theorem shrink (h : c.Accounted) {bytes : Nat} (hbytes : bytes ≤ c.maxBytes) :
    (c.shrink bytes c.entries.reverse).Accounted ∧
      (c.shrink bytes c.entries.reverse).totalBytes + bytes ≤ c.maxBytes := by
  have hsame := After.shrink c bytes c.entries.reverse
  have hinitial := shrink_initial c bytes c.entries.reverse
  rw [List.reverse_reverse] at hinitial
  have hsum : c.totalBytes = bytesOf c.entries.reverse := h.bytes.trans (bytesOf_reverse _).symm
  obtain ⟨hcount, hroom⟩ := shrink_bytes hsum hbytes
  refine ⟨⟨?_, hcount, ?_, ?_⟩, hroom⟩
  · exact h.nodup.sublist (hinitial.sublist.map _)
  · rw [hsame.maxBytes]
    omega
  · rw [hsame.maxEntries]
    exact hinitial.length_le.trans h.room

/-- The entry that goes when there is no room. -/
theorem bytes_last (h : c.Accounted) :
    c.totalBytes = bytesOf c.entries.dropLast + (c.entries.getLast?.map fun l => l.2.bytes).getD 0 := by
  rw [h.bytes]
  obtain hnil | ⟨init, x, hcons⟩ := List.eq_nil_or_concat' c.entries
  · rw [hnil]
    rfl
  · rw [hcons, List.dropLast_concat, List.getLast?_concat, bytesOf_append]
    rfl

/-- An entry that fits is accounted for. -/
theorem push (h : c.Accounted) (key : CacheKey) {e : CacheEntry} (hfits : c.totalBytes + e.bytes ≤ c.maxBytes) :
    (c.push key e).Accounted := by
  have hsame := After.push c key e
  have hroom := h.room
  unfold QueryCache.push at hsame ⊢
  cases hkey : c.held key with
  | some old =>
    have hbytes := h.bytes_held hkey
    have hlength := h.length_filter hkey
    refine ⟨List.nodup_cons.2 ⟨notMem_filter c key, h.nodup_filter key⟩, ?_, ?_, ?_⟩
    · show c.totalBytes - old.bytes + e.bytes = bytesOf ((key, e) :: c.entries.filter fun k => k.1 ≠ key)
      rw [bytesOf_cons]
      dsimp only
      omega
    · show c.totalBytes - old.bytes + e.bytes ≤ c.maxBytes
      omega
    · show (c.entries.filter fun k => k.1 ≠ key).length + 1 ≤ max c.maxEntries 1
      omega
  | none =>
    have hfresh : key ∉ c.entries.map Prod.fst := by
      intro hmem
      obtain ⟨x, hx, rfl⟩ := List.mem_map.1 hmem
      exact absurd hkey (by simpa [held, List.lookup_eq_none_iff] using ⟨x.2, hx⟩)
    dsimp only
    split
    next hspace =>
      refine ⟨List.nodup_cons.2 ⟨hfresh, h.nodup⟩, ?_, hfits, hspace⟩
      show c.totalBytes + e.bytes = bytesOf ((key, e) :: c.entries)
      rw [bytesOf_cons, h.bytes, Nat.add_comm]
    next hfull =>
      have hlast := h.bytes_last
      refine ⟨List.nodup_cons.2 ⟨fun hmem => hfresh ?_, ?_⟩, ?_, ?_, ?_⟩
      · exact (c.entries.dropLast_prefix.sublist.map Prod.fst).subset hmem
      · exact h.nodup.sublist (c.entries.dropLast_prefix.sublist.map _)
      · show c.totalBytes - (c.entries.getLast?.map fun l => l.2.bytes).getD 0 + e.bytes = bytesOf ((key, e) :: _)
        rw [bytesOf_cons]
        dsimp only
        omega
      · show c.totalBytes - (c.entries.getLast?.map fun l => l.2.bytes).getD 0 + e.bytes ≤ c.maxBytes
        omega
      · show c.entries.dropLast.length + 1 ≤ max c.maxEntries 1
        rw [List.length_dropLast]
        omega

/-- Its sum does not overflow. -/
theorem pushChecked_eq (h : c.Accounted) (hword : 2 * c.maxBytes < word) (key : CacheKey) {e : CacheEntry}
    (hfits : c.totalBytes + e.bytes ≤ c.maxBytes) : c.pushChecked word key e = some (c.push key e) := by
  have hmore : ∀ left ≤ c.totalBytes, more word left e.bytes = some (left + e.bytes) := fun left hleft =>
      if_pos (by omega)
  unfold QueryCache.pushChecked QueryCache.push
  cases hkey : c.held key with
  | some old =>
    have hbytes := h.bytes_held hkey
    have hless : less c.totalBytes old.bytes = some (c.totalBytes - old.bytes) := if_pos (by omega)
    dsimp only
    rw [hless, Option.bind_eq_bind, Option.bind_some, hmore _ (Nat.sub_le _ _)]
    rfl
  | none =>
    dsimp only
    split
    · rw [hmore _ le_rfl]
      rfl
    · have hlast := h.bytes_last
      have hless : less c.totalBytes ((c.entries.getLast?.map fun l => l.2.bytes).getD 0) =
          some (c.totalBytes - (c.entries.getLast?.map fun l => l.2.bytes).getD 0) := if_pos (by omega)
      rw [hless, Option.bind_eq_bind, Option.bind_some, hmore _ (Nat.sub_le _ _)]
      rfl

/-- A put keeps the account. -/
theorem put (h : c.Accounted) (now : Int) (key : CacheKey) (batches : List Batch) (bytes : Nat) :
    (c.put now key batches bytes).Accounted := by
  unfold QueryCache.put
  split
  · exact h
  next hfits =>
    obtain ⟨hshrunk, hroom⟩ := h.shrink (Nat.le_of_not_lt hfits)
    exact hshrunk.push key (by rwa [(After.shrink c bytes _).maxBytes])

/-- With checked arithmetic it is the same. -/
theorem putChecked_eq (h : c.Accounted) (hword : 2 * c.maxBytes < word) (now : Int) (key : CacheKey)
    (batches : List Batch) (bytes : Nat) :
    c.putChecked word now key batches bytes = some (c.put now key batches bytes) := by
  unfold QueryCache.putChecked QueryCache.put
  split
  · rfl
  next hfits =>
    have hsame := After.shrink c bytes c.entries.reverse
    obtain ⟨hshrunk, hroom⟩ := h.shrink (Nat.le_of_not_lt hfits)
    rw [shrinkChecked_eq (h.bytes.trans (bytesOf_reverse _).symm) h.within (Nat.le_of_not_lt hfits) hword,
      Option.bind_eq_bind, Option.bind_some]
    exact hshrunk.pushChecked_eq (by rwa [hsame.maxBytes]) key (by rwa [hsame.maxBytes])

/-! ### Invalidations -/

theorem drops (h : c.Accounted) (keys : List CacheKey) : (keys.foldl QueryCache.drop c).Accounted := by
  induction keys generalizing c with
  | nil => exact h
  | cons key keys ih => exact ih (h.drop key)

theorem dropsChecked_eq (h : c.Accounted) (keys : List CacheKey) :
    keys.foldlM dropChecked c = some (keys.foldl QueryCache.drop c) := by
  induction keys generalizing c with
  | nil => rfl
  | cons key keys ih =>
    rw [List.foldlM_cons, h.dropChecked_eq key]
    exact ih (h.drop key)

/-! ### Every operation -/

/-- Every operation keeps the account. -/
theorem apply (h : c.Accounted) (now : Int) (op : CacheOp) : (c.apply now op).2.Accounted := by
  cases op with
  | put key batches bytes => exact h.put now key batches bytes
  | get key => exact h.get now key
  | invalidateContract contract => exact h.drops _
  | invalidateAll => exact ⟨List.nodup_nil, rfl, Nat.zero_le _, Nat.zero_le _⟩

/-- No operation fails in a cache whose count is right. -/
theorem applyChecked_eq (h : c.Accounted) (hword : 2 * c.maxBytes < word) (now : Int) (op : CacheOp) :
    c.applyChecked word now op = some (c.apply now op) := by
  cases op with
  | put key batches bytes => exact congrArg (Option.map _) (h.putChecked_eq hword now key batches bytes)
  | get key => exact h.getChecked_eq now key
  | invalidateContract contract => exact congrArg (Option.map _) (h.dropsChecked_eq _)
  | invalidateAll => rfl

end Accounted

/-! ## What is held -/

/-- An entry was put under a key, and nothing since has invalidated or replaced it. -/
def PutSince (maxBytes : Nat) (ops : List (Int × CacheOp)) (key : CacheKey) (e : CacheEntry) : Prop :=
  ∃ before after, ops = before ++ (e.since, .put key e.batches e.bytes) :: after ∧
    ∀ op ∈ after, ¬ op.2.Invalidates key ∧ ¬ op.2.Replaces maxBytes key

/-- An answer put stays put until something invalidates or replaces it. -/
theorem PutSince.later {maxBytes : Nat} {ops : List (Int × CacheOp)} {key : CacheKey} {e : CacheEntry}
    (h : PutSince maxBytes ops key e) {op : Int × CacheOp} (hkept : ¬ op.2.Invalidates key)
    (hkept' : ¬ op.2.Replaces maxBytes key) : PutSince maxBytes (ops ++ [op]) key e := by
  obtain ⟨before, after, rfl, hafter⟩ := h
  refine ⟨before, after ++ [op], by simp, fun o ho => ?_⟩
  rcases List.mem_append.1 ho with ho | ho
  · exact hafter o ho
  · rw [List.mem_singleton.1 ho]
    exact ⟨hkept, hkept'⟩

/-- What is held after some keys are dropped was held, under another key. -/
theorem held_of_drops {c : QueryCache} {keys : List CacheKey} {k : CacheKey} {e : CacheEntry}
    (h : (keys.foldl drop c).held k = some e) : k ∉ keys ∧ c.held k = some e := by
  induction keys generalizing c with
  | nil => exact ⟨List.not_mem_nil, h⟩
  | cons key keys ih =>
    obtain ⟨hnot, hheld⟩ := ih h
    rw [held_drop] at hheld
    split at hheld
    · cases hheld
    next hne => exact ⟨fun hmem => (List.mem_cons.1 hmem).elim hne hnot, hheld⟩

theorem mem_of_held {c : QueryCache} {k : CacheKey} {e : CacheEntry} (h : c.held k = some e) :
    k ∈ c.entries.map Prod.fst := by
  by_contra hnot
  have hnone : c.held k = none := by
    refine List.lookup_eq_none_iff.2 fun x hx => ?_
    simp only [bne_iff_ne]
    rintro rfl
    exact hnot (List.mem_map_of_mem hx)
  rw [hnone] at h
  cases h

/-- What is held after an operation was put by it, or was held before and is neither invalidated nor replaced. -/
theorem held_of_apply {c : QueryCache} {now : Int} {op : CacheOp} {k : CacheKey} {e : CacheEntry}
    (h : (c.apply now op).2.held k = some e) :
    now = e.since ∧ op = .put k e.batches e.bytes ∨
      c.held k = some e ∧ ¬ op.Invalidates k ∧ ¬ op.Replaces c.maxBytes k := by
  cases op with
  | put key batches bytes =>
    rcases held_of_put h with ⟨rfl, rfl⟩ | ⟨hlarge, hheld⟩
    · exact .inl ⟨rfl, rfl⟩
    · refine .inr ⟨hheld, id, fun hreplaces => ?_⟩
      have := hlarge hreplaces.1.symm
      have := hreplaces.2
      omega
  | get key => exact .inr ⟨held_of_get h, id, id⟩
  | invalidateContract contract =>
    obtain ⟨hnot, hheld⟩ := held_of_drops h
    refine .inr ⟨hheld, fun hcontract => hnot ?_, id⟩
    exact List.mem_filter.2 ⟨mem_of_held hheld, List.contains_iff_mem.2 hcontract⟩
  | invalidateAll => cases h

/-! ## Every sequence of operations -/

/-- A cache of a configuration, after some operations. -/
structure Accounts (config : QueryCacheConfig) (ops : List (Int × CacheOp)) (c : QueryCache) : Prop where
  accounted : c.Accounted
  after : After (ops.countP fun op => op.2.isGet) (new config) c
  held : ∀ key e, c.held key = some e → PutSince config.maxBytes ops key e

/-- One more operation, accounted for. -/
theorem Accounts.apply {config : QueryCacheConfig} {ops : List (Int × CacheOp)} {c : QueryCache}
    (h : Accounts config ops c) (now : Int) (op : CacheOp) :
    Accounts config (ops ++ [(now, op)]) (c.apply now op).2 where
  accounted := h.accounted.apply now op
  after := by
    have hop := h.after.trans (After.apply c now op)
    rwa [List.countP_append, List.countP_singleton]
  held key e he := by
    rcases held_of_apply he with ⟨rfl, rfl⟩ | ⟨hheld, hkept, hkept'⟩
    · exact ⟨ops, [], rfl, by simp⟩
    · rw [h.after.maxBytes] at hkept'
      exact (h.held key e hheld).later hkept hkept'

/-- What a look-up returns was put under its key, is not expired, and has not been invalidated or replaced since. -/
theorem Accounts.found {config : QueryCacheConfig} {ops : List (Int × CacheOp)} {c : QueryCache}
    (h : Accounts config ops c) {now : Int} {key : CacheKey} {batches : List Batch}
    (hget : (c.get now key).1 = some batches) :
    ∃ e, PutSince config.maxBytes ops key e ∧ e.batches = batches ∧ now - e.since ≤ config.ttlSecs := by
  rw [get_fst] at hget
  split at hget
  · cases hget
  next hfresh =>
    obtain ⟨e, he, rfl⟩ := Option.map_eq_some_iff.1 hget
    refine ⟨e, h.held key e he, rfl, ?_⟩
    rw [expired, he, Option.any_some, decide_eq_true_iff, h.after.ttl] at hfresh
    exact not_lt.1 hfresh

/-- No run with checked arithmetic stops, and all of it is accounted for. -/
theorem run_accounts {word : Nat} {config : QueryCacheConfig} (hword : 2 * config.maxBytes < word)
    (ops : List (Int × CacheOp)) : ∃ c, (new config).runChecked word ops = some c ∧ Accounts config ops c := by
  induction ops using List.reverseRecOn with
  | nil =>
    refine ⟨new config, rfl, ⟨?_, .refl _, ?_⟩⟩
    · exact ⟨List.nodup_nil, rfl, Nat.zero_le _, Nat.zero_le _⟩
    · intro key e he
      cases he
  | append_singleton ops op ih =>
    obtain ⟨c, hrun, h⟩ := ih
    refine ⟨(c.apply op.1 op.2).2, ?_, h.apply op.1 op.2⟩
    have hroom : 2 * c.maxBytes < word := by rwa [h.after.maxBytes]
    have hsome := h.accounted.applyChecked_eq hroom op.1 op.2
    unfold runChecked at hrun ⊢
    rw [List.foldlM_append, hrun, Option.bind_eq_bind, Option.bind_some, List.foldlM_cons, hsome]
    rfl

/-- Whatever is done with a cache, its count never drifts: no addition or subtraction fails, its bytes are those of the
entries it holds and its entries no more than it takes, every get is counted, and what a get returns was put under its
key, has not expired, and has not been invalidated since. -/
theorem never_drifts {word : Nat} {config : QueryCacheConfig} (hword : 2 * config.maxBytes < word)
    (ops : List (Int × CacheOp)) :
    ∃ c, (new config).runChecked word ops = some c ∧ c.totalBytes = bytesOf c.entries ∧
      c.totalBytes ≤ config.maxBytes ∧ c.entries.length ≤ max config.maxEntries 1 ∧
      c.hits + c.misses = ops.countP (fun op => op.2.isGet) ∧
      ∀ now op, ∃ found d, c.applyChecked word now op = some (found, d) ∧
        ∀ key batches, op = .get key → found = some batches →
          ∃ e, PutSince config.maxBytes ops key e ∧ e.batches = batches ∧ now - e.since ≤ config.ttlSecs := by
  obtain ⟨c, hrun, h⟩ := run_accounts hword ops
  refine ⟨c, hrun, h.accounted.bytes, ?_, ?_, ?_, fun now op => ?_⟩
  · rw [← show c.maxBytes = config.maxBytes from h.after.maxBytes]
    exact h.accounted.within
  · rw [← show c.maxEntries = config.maxEntries from h.after.maxEntries]
    exact h.accounted.room
  · have hgets := h.after.gets
    rwa [show (new config).hits + (new config).misses = 0 from rfl, Nat.zero_add] at hgets
  · refine ⟨_, _, h.accounted.applyChecked_eq (by rwa [h.after.maxBytes]) now op, ?_⟩
    rintro key batches rfl hfound
    exact h.found hfound

/-- A cache of seven bytes in a word of four bits: one answer put in the place of another, found, and invalidated. -/
theorem never_drifts_of_seven_bytes : ∃ c, (new ⟨1, 7, 60⟩).runChecked 16
    [(0, .put ⟨"a", ["acme/amounts"]⟩ [] 4), (1, .put ⟨"b", ["acme/amounts"]⟩ [] 5), (2, .get ⟨"b", ["acme/amounts"]⟩),
      (3, .invalidateContract "acme/amounts")] = some c ∧ c.totalBytes = bytesOf c.entries :=
  have hroom : 2 * (⟨1, 7, 60⟩ : QueryCacheConfig).maxBytes < 16 := by decide
  let ⟨c, hrun, hbytes, _⟩ := never_drifts hroom _
  ⟨c, hrun, hbytes⟩

end QueryCache

end Peql
