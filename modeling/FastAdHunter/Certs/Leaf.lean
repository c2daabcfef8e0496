import FastAdHunter.Certs.Authority

/-!
# The cache of leaf certificates

Leaves are kept by host, with the time of their last use on a clock of the cache.
A host whose leaf is being minted is in flight. The cache is emptied when the
authority is replaced, and its epoch goes up; a leaf is stored only if the epoch is
still the one that was read with its authority.
-/

namespace FastAdHunter.Certs

open Lib List

def leafValidityDays : Nat := 7

def leafCacheCapacity : Nat := 512

/-- A minted leaf: whose it is, for which host, until when, and its key. -/
structure Leaf where
  issuer : CaHandle
  host : Bytes
  notAfter : Int
  key : Bytes
  deriving DecidableEq

/-- The times that a calendar date can be made of. -/
def timestampRange (time : Int) : Bool :=
  -377705116800 ≤ time && time ≤ 253402300799

/-- Until when a leaf issued now is valid: not longer than its authority. -/
def leafNotAfter (ca : CaHandle) (issued : Int) : Int :=
  let until' := issued + leafValidityDays * 86400
  if timestampRange ca.summary.notAfter then min until' ca.summary.notAfter else until'

structure Entry where
  key : Leaf
  notAfter : Int
  used : Nat
  deriving DecidableEq

structure LeafCache where
  entries : List (Bytes × Entry)
  inflight : List Bytes
  clock : Nat
  epoch : Nat
  deriving DecidableEq

inductive Lease where
  | fresh (key : Leaf)
  | mint
  | busy
  deriving DecidableEq

namespace LeafCache

def empty : LeafCache := ⟨[], [], 0, 0⟩

def lookup (cache : LeafCache) (host : Bytes) : Option Entry :=
  (cache.entries.find? fun (name, _) => name == host).map Prod.snd

def remove (cache : LeafCache) (host : Bytes) : LeafCache :=
  { cache with entries := cache.entries.filter fun (name, _) => name != host }

def insert (cache : LeafCache) (host : Bytes) (entry : Entry) : LeafCache :=
  { cache with entries := (host, entry) :: (cache.remove host).entries }

def clear (cache : LeafCache) : LeafCache :=
  { cache with entries := [], epoch := cache.epoch + 1 }

/-- The leaf of a host, if it is not past its time; a leaf that is goes. -/
def takeFresh (cache : LeafCache) (host : Bytes) (now : Int) (clock : Nat) :
    Option Leaf × LeafCache :=
  match cache.lookup host with
  | some entry =>
    if entry.notAfter > now then (some entry.key, cache.insert host { entry with used := clock })
    else (none, cache.remove host)
  | none => (none, cache)

def cached (cache : LeafCache) (host : Bytes) (now : Int) : Option Leaf × LeafCache :=
  match cache.takeFresh host now cache.clock with
  | (some key, cache) => (some key, { cache with clock := cache.clock + 1 })
  | (none, cache) => (none, cache)

/-- One look of a pre-warm, with the lock held: the leaf, the right to mint it, or
somebody else has that right. -/
def lease (cache : LeafCache) (host : Bytes) (now : Int) : Lease × LeafCache :=
  match cache.cached host now with
  | (some key, cache) => (.fresh key, cache)
  | (none, cache) =>
    if host ∈ cache.inflight then (.busy, cache)
    else (.mint, { cache with inflight := host :: cache.inflight })

/-- The host that was used least recently. -/
def victim : List (Bytes × Entry) → Option (Bytes × Entry)
  | [] => none
  | item :: rest =>
    match victim rest with
    | some other => if item.2.used ≤ other.2.used then some item else some other
    | none => some item

def evictOne (cache : LeafCache) : LeafCache :=
  match victim cache.entries with
  | some (host, _) => cache.remove host
  | none => cache

def storeMinted (capacity : Nat) (cache : LeafCache) (host : Bytes) (epoch : Nat) (key : Leaf)
    (notAfter : Int) : Bool × LeafCache :=
  if cache.epoch = epoch then
    let cache :=
      if (cache.lookup host).isNone && decide (capacity ≤ cache.entries.length) then cache.evictOne
      else cache
    (true, { cache.insert host ⟨key, notAfter, cache.clock⟩ with clock := cache.clock + 1 })
  else (false, cache)

/-- A mint is over. -/
def release (cache : LeafCache) (host : Bytes) : LeafCache :=
  { cache with inflight := cache.inflight.filter fun name => name != host }

def keys (cache : LeafCache) : List Leaf := cache.entries.map fun item => item.2.key

section Entries

variable {cache : LeafCache} {host : Bytes}

lemma keys_remove (h : key ∈ (cache.remove host).keys) : key ∈ cache.keys := by
  obtain ⟨item, hitem, rfl⟩ := mem_map.mp h
  exact mem_map_of_mem (mem_of_mem_filter hitem)

lemma keys_insert (h : key ∈ (cache.insert host entry).keys) :
    key = entry.key ∨ key ∈ cache.keys := by
  rcases mem_cons.mp h with rfl | h
  · exact .inl rfl
  · exact .inr (keys_remove h)

lemma mem_keys_of_lookup (h : cache.lookup host = some entry) :
    entry.key ∈ cache.keys := by
  obtain ⟨item, hitem, rfl⟩ := Option.map_eq_some_iff.mp h
  exact mem_map_of_mem (mem_of_find?_eq_some hitem)

lemma takeFresh_keys (cache : LeafCache) (host : Bytes) (now : Int) (clock : Nat) :
    (∀ key ∈ (cache.takeFresh host now clock).2.keys, key ∈ cache.keys) ∧
      (∀ key, (cache.takeFresh host now clock).1 = some key →
        key ∈ (cache.takeFresh host now clock).2.keys) ∧
      (cache.takeFresh host now clock).2.epoch = cache.epoch := by
  unfold takeFresh
  split
  next entry hentry =>
    split
    · refine ⟨fun key hkey => ?_, fun key hkey => ?_, rfl⟩
      · rcases keys_insert hkey with heq | hkey
        · have hold : key = entry.key := heq
          rw [hold]
          exact mem_keys_of_lookup hentry
        · exact hkey
      · cases hkey
        exact mem_cons_self
    · exact ⟨fun key => keys_remove, fun key hkey => (nomatch hkey), rfl⟩
  · exact ⟨fun key hkey => hkey, fun key hkey => (nomatch hkey), rfl⟩

lemma cached_keys (cache : LeafCache) (host : Bytes) (now : Int) :
    (∀ key ∈ (cache.cached host now).2.keys, key ∈ cache.keys) ∧
      (∀ key, (cache.cached host now).1 = some key → key ∈ (cache.cached host now).2.keys) ∧
      (cache.cached host now).2.epoch = cache.epoch := by
  have h := takeFresh_keys cache host now cache.clock
  unfold cached
  split
  next hfresh =>
    rw [hfresh] at h
    exact h
  next hfresh =>
    rw [hfresh] at h
    exact h

lemma lease_keys (cache : LeafCache) (host : Bytes) (now : Int) :
    (∀ key ∈ (cache.lease host now).2.keys, key ∈ cache.keys) ∧
      (∀ key, (cache.lease host now).1 = .fresh key → key ∈ (cache.lease host now).2.keys) ∧
      (cache.lease host now).2.epoch = cache.epoch := by
  obtain ⟨hkeys, hfound, hepoch⟩ := cached_keys cache host now
  unfold lease
  split
  next key cache' hcached =>
    rw [hcached] at hkeys hfound hepoch
    refine ⟨hkeys, fun key' hkey => ?_, hepoch⟩
    cases hkey
    exact hfound key rfl
  next cache' hcached =>
    rw [hcached] at hkeys hepoch
    split
    all_goals exact ⟨hkeys, fun key hkey => (nomatch hkey), hepoch⟩

lemma keys_evictOne (h : key ∈ cache.evictOne.keys) : key ∈ cache.keys := by
  unfold evictOne at h
  split at h
  · exact keys_remove h
  · exact h

lemma epoch_evictOne : cache.evictOne.epoch = cache.epoch := by
  unfold evictOne
  split <;> rfl

lemma storeMinted_keys (capacity : Nat) (cache : LeafCache) (host : Bytes) (epoch : Nat)
    (key : Leaf) (notAfter : Int) :
    ((cache.storeMinted capacity host epoch key notAfter).1 = true →
        key ∈ (cache.storeMinted capacity host epoch key notAfter).2.keys) ∧
      (∀ key' ∈ (cache.storeMinted capacity host epoch key notAfter).2.keys,
        cache.epoch = epoch ∧ key' = key ∨ key' ∈ cache.keys) ∧
      (cache.storeMinted capacity host epoch key notAfter).2.epoch = cache.epoch := by
  unfold storeMinted
  split
  next hepoch =>
    refine ⟨fun _ => mem_cons_self, fun key' hkey => ?_, ?_⟩
    · refine (keys_insert hkey).imp (fun h => ⟨hepoch, h⟩) fun h => ?_
      split at h
      · exact keys_evictOne h
      · exact h
    · dsimp only [insert]
      split
      · exact epoch_evictOne
      · rfl
  · exact ⟨fun h => (nomatch h), fun key' hkey => .inr hkey, rfl⟩

end Entries

end LeafCache

end FastAdHunter.Certs
