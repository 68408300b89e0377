import Mathlib.Algebra.Order.Ring.Nat
import Mathlib.Data.String.Basic
import Mathlib.Data.List.Basic
import Peql.Gate.Plan
import Peql.Parcel

/-!
# The result cache

An answer is kept under the hash of its SQL and of a fingerprint of each contract it read, with the names of those
contracts. The most recently used entry stands first; bytes and times are the caller's.
-/

namespace Peql

/-- A batch of an answer. -/
structure Batch where
  schema : List ColumnDef
  rows : List Row

/-- The fingerprint of everything a result depends on. -/
structure CacheKey where
  digest : String
  /-- Contracts the query read, for invalidation. -/
  contracts : List String
deriving DecidableEq

/-- `parts` are, per contract: its name, and a fingerprint of its rules, parameters, shapes and data. -/
def CacheKey.new (sha256 : String → String) (sql : String) (parts : List (String × String)) : CacheKey where
  digest := sha256 (parts.foldl (fun text part => text ++ "\x1e" ++ part.1 ++ "\x1f" ++ part.2) sql)
  contracts := parts.map Prod.fst

structure CacheEntry where
  batches : List Batch
  bytes : Nat
  since : Int

structure QueryCache where
  entries : List (CacheKey × CacheEntry)
  totalBytes : Nat
  hits : Nat
  misses : Nat
  maxEntries : Nat
  maxBytes : Nat
  ttl : Int

structure QueryCacheConfig where
  maxEntries : Nat
  maxBytes : Nat
  ttlSecs : Nat

namespace QueryCache

def new (config : QueryCacheConfig) : QueryCache where
  entries := []
  totalBytes := 0
  hits := 0
  misses := 0
  maxEntries := config.maxEntries
  maxBytes := config.maxBytes
  ttl := config.ttlSecs

/-- What is held under a key. -/
def held (c : QueryCache) (key : CacheKey) : Option CacheEntry := c.entries.lookup key

/-- `lru.pop(key)`, with the entry's bytes given back. -/
def drop (c : QueryCache) (key : CacheKey) : QueryCache :=
  match c.held key with
  | some e => { c with entries := c.entries.filter fun k => k.1 ≠ key, totalBytes := c.totalBytes - e.bytes }
  | none => c

def expired (c : QueryCache) (now : Int) (key : CacheKey) : Bool :=
  (c.held key).any fun e => c.ttl < now - e.since

def get (c : QueryCache) (now : Int) (key : CacheKey) : Option (List Batch) × QueryCache :=
  let c := if c.expired now key then c.drop key else c
  match c.held key with
  | some e =>
    (some e.batches,
      { c with entries := (key, e) :: c.entries.filter fun k => k.1 ≠ key, hits := c.hits + 1 })
  | none => (none, { c with misses := c.misses + 1 })

/-- The least recently used entries go, last first, until `bytes` more fit. -/
def shrink (c : QueryCache) (bytes : Nat) : List (CacheKey × CacheEntry) → QueryCache
  | [] => { c with entries := [] }
  | e :: older =>
    if c.maxBytes < c.totalBytes + bytes then
      ({ c with totalBytes := c.totalBytes - e.2.bytes } : QueryCache).shrink bytes older
    else { c with entries := (e :: older).reverse }

/-- `lru.push`: the entry stands first, and the one it replaces, or else the last one when there is no room, goes. -/
def push (c : QueryCache) (key : CacheKey) (e : CacheEntry) : QueryCache :=
  match c.held key with
  | some old =>
    { c with
      entries := (key, e) :: c.entries.filter fun k => k.1 ≠ key
      totalBytes := c.totalBytes - old.bytes + e.bytes }
  | none =>
    if c.entries.length < max c.maxEntries 1 then
      { c with entries := (key, e) :: c.entries, totalBytes := c.totalBytes + e.bytes }
    else
      { c with
        entries := (key, e) :: c.entries.dropLast
        totalBytes := c.totalBytes - ((c.entries.getLast?.map fun l => l.2.bytes).getD 0) + e.bytes }

def put (c : QueryCache) (now : Int) (key : CacheKey) (batches : List Batch) (bytes : Nat) : QueryCache :=
  if c.maxBytes < bytes then c
  else (c.shrink bytes c.entries.reverse).push key ⟨batches, bytes, now⟩

/-- Every answer that read `contract` goes. -/
def invalidateContract (c : QueryCache) (contract : String) : QueryCache :=
  ((c.entries.map Prod.fst).filter fun k => k.contracts.contains contract).foldl drop c

def invalidateAll (c : QueryCache) : QueryCache := { c with entries := [], totalBytes := 0 }

/-! ## Looking a key up -/

theorem lookup_filter_ne {entries : List (CacheKey × CacheEntry)} {key k : CacheKey} (h : k ≠ key) :
    (entries.filter fun e => e.1 ≠ key).lookup k = entries.lookup k := by
  induction entries with
  | nil => rfl
  | cons e es ih =>
    obtain ⟨k', v⟩ := e
    by_cases hk' : k' = key
    · subst hk'
      have hne : (k == k') = false := beq_eq_false_iff_ne.2 h
      rw [List.filter_cons_of_neg (by simp), ih, List.lookup_cons, hne]
    · rw [List.filter_cons_of_pos (by simpa using hk'), List.lookup_cons, List.lookup_cons, ih]

theorem lookup_filter_self {entries : List (CacheKey × CacheEntry)} {key : CacheKey} :
    (entries.filter fun e => e.1 ≠ key).lookup key = none := by
  induction entries with
  | nil => rfl
  | cons e es ih =>
    obtain ⟨k', v⟩ := e
    by_cases hk' : k' = key
    · rw [List.filter_cons_of_neg (by simp [hk']), ih]
    · have hne : (key == k') = false := beq_eq_false_iff_ne.2 (Ne.symm hk')
      rw [List.filter_cons_of_pos (by simpa using hk'), List.lookup_cons, hne]
      exact ih

/-- Dropping a key leaves the others. -/
theorem held_drop (c : QueryCache) (key k : CacheKey) : (c.drop key).held k = if k = key then none else c.held k := by
  unfold drop
  cases hc : c.held key with
  | none =>
    by_cases hk : k = key
    · rw [if_pos hk, hk]
      exact hc
    · rw [if_neg hk]
  | some e =>
    by_cases hk : k = key
    · rw [if_pos hk, hk]
      exact lookup_filter_self
    · rw [if_neg hk]
      exact lookup_filter_ne hk

/-- What a look-up answers, from what is held under the key alone. -/
theorem get_fst (c : QueryCache) (now : Int) (key : CacheKey) :
    (c.get now key).1 = if c.expired now key then none else (c.held key).map CacheEntry.batches := by
  unfold get
  cases hexp : c.expired now key with
  | true =>
    have hdrop : (c.drop key).held key = none := by
      rw [held_drop, if_pos rfl]
    simp only [if_true, hdrop]
  | false =>
    simp only [Bool.false_eq_true, if_false]
    cases c.held key <;> rfl

theorem drop_ttl (c : QueryCache) (key : CacheKey) : (c.drop key).ttl = c.ttl := by
  unfold drop
  cases c.held key <;> rfl

theorem get_ttl (c : QueryCache) (now : Int) (key : CacheKey) : (c.get now key).2.ttl = c.ttl := by
  have hkept : (if c.expired now key then c.drop key else c).ttl = c.ttl := by
    split
    · exact drop_ttl c key
    · rfl
  unfold get
  dsimp only
  cases (if c.expired now key then c.drop key else c).held key <;> exact hkept

/-- A look-up changes what is held under its own key at most, and only when that has expired. -/
theorem held_get (c : QueryCache) (now : Int) (key k : CacheKey) :
    (c.get now key).2.held k = if k = key ∧ c.expired now key then none else c.held k := by
  have hmove : ∀ (d : QueryCache) e, d.held key = some e →
      List.lookup k ((key, e) :: d.entries.filter fun k => k.1 ≠ key) = d.held k := by
    intro d e hd
    by_cases hk : k = key
    · subst hk
      rw [List.lookup_cons, beq_self_eq_true]
      exact hd.symm
    · rw [List.lookup_cons, beq_eq_false_iff_ne.2 hk]
      exact lookup_filter_ne hk
  unfold get
  cases hexp : c.expired now key with
  | true =>
    have hdrop : (c.drop key).held key = none := by
      rw [held_drop, if_pos rfl]
    simp only [if_true, hdrop, and_true]
    exact held_drop c key k
  | false =>
    simp only [Bool.false_eq_true, if_false, and_false]
    cases hheld : c.held key with
    | none => rfl
    | some e => exact hmove c e hheld

/-! ## What comes into a cache, and what goes -/

theorem held_of_get {c : QueryCache} {now : Int} {key k : CacheKey} {e : CacheEntry}
    (h : (c.get now key).2.held k = some e) : c.held k = some e := by
  rw [held_get] at h
  split at h
  · cases h
  · exact h

/-- A look-up that finds an answer finds one that is held. -/
theorem held_of_found {c : QueryCache} {now : Int} {key : CacheKey} {batches : List Batch}
    (h : (c.get now key).1 = some batches) : ∃ e, c.held key = some e ∧ e.batches = batches := by
  rw [get_fst] at h
  split at h
  · cases h
  · exact Option.map_eq_some_iff.1 h

theorem lookup_of_initial {xs ys : List (CacheKey × CacheEntry)} {k : CacheKey} {e : CacheEntry} (h : xs <+: ys)
    (hx : xs.lookup k = some e) : ys.lookup k = some e := by
  obtain ⟨zs, rfl⟩ := h
  rw [List.lookup_append, hx]
  rfl

/-- Making room leaves the most recently used entries. -/
theorem shrink_initial (c : QueryCache) (bytes : Nat) (older : List (CacheKey × CacheEntry)) :
    (c.shrink bytes older).entries <+: older.reverse := by
  induction older generalizing c with
  | nil => exact List.prefix_rfl
  | cons e older ih =>
    unfold shrink
    split
    · rw [List.reverse_cons]
      exact (ih _).trans (List.prefix_append _ _)
    · exact List.prefix_rfl

/-- What is held after an entry is pushed is the entry, or was held before under another key. -/
theorem held_of_push {c : QueryCache} {key k : CacheKey} {new e : CacheEntry} (h : (c.push key new).held k = some e) :
    k = key ∧ e = new ∨ k ≠ key ∧ c.held k = some e := by
  have hcons : ∀ {entries : List (CacheKey × CacheEntry)}, ((key, new) :: entries).lookup k = some e →
      k = key ∧ e = new ∨ k ≠ key ∧ entries.lookup k = some e := by
    intro entries hlookup
    by_cases hk : k = key
    · subst hk
      rw [List.lookup_cons, beq_self_eq_true] at hlookup
      exact .inl ⟨rfl, (Option.some.inj hlookup).symm⟩
    · rw [List.lookup_cons, beq_eq_false_iff_ne.2 hk] at hlookup
      exact .inr ⟨hk, hlookup⟩
  unfold push at h
  split at h
  · refine (hcons h).imp_right fun ⟨hk, hrest⟩ => ⟨hk, ?_⟩
    rwa [lookup_filter_ne hk] at hrest
  · split at h
    · exact hcons h
    · exact (hcons h).imp_right fun ⟨hk, hrest⟩ => ⟨hk, lookup_of_initial (List.dropLast_prefix _) hrest⟩

/-- What is held after an answer is put is the answer, or was held before under another key; an answer too large for
the cache is not put. -/
theorem held_of_put {c : QueryCache} {now : Int} {key k : CacheKey} {batches : List Batch} {bytes : Nat}
    {e : CacheEntry} (h : (c.put now key batches bytes).held k = some e) :
    k = key ∧ e = ⟨batches, bytes, now⟩ ∨ (k = key → c.maxBytes < bytes) ∧ c.held k = some e := by
  unfold put at h
  split at h
  next hlarge => exact .inr ⟨fun _ => hlarge, h⟩
  next =>
    refine (held_of_push h).imp_right fun ⟨hk, hold⟩ => ⟨fun heq => absurd heq hk, ?_⟩
    have hinitial := shrink_initial c bytes c.entries.reverse
    rw [List.reverse_reverse] at hinitial
    exact lookup_of_initial hinitial hold

end QueryCache

end Peql
