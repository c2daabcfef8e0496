import FastAdHunter.Dns.Pipeline
import FastAdHunter.Lib.Fifo

/-!
# The answer cache

Sixteen shards, each a table of entries beside an insertion queue, bounded in
entries and in bytes. A shard is only touched under its own lock, so a history
of the cache is a list of steps, each at its instant and on one shard; a clean
takes the shards one after another and is one step for each. Instants and
durations are numbers of nanoseconds.
-/

namespace FastAdHunter.Dns

open Lib

def seconds (n : Nat) : Nat := n * 1000000000

def asSecs (duration : Nat) : Nat := duration / 1000000000

def maxStale : Nat := seconds (24 * 60 * 60)

def refreshFailureCooldown : Nat := seconds 30

structure Entry where
  answer : CachedAnswer
  insertedAt : Nat
  ttl : Nat
  seq : Nat
  refreshSuppressedUntil : Option Nat
  deriving DecidableEq

inductive EntryState where
  | fresh
  | stale
  | expired
  deriving DecidableEq

namespace Entry

def expiresAt (entry : Entry) : Nat := entry.insertedAt + entry.ttl

def staleDeadline (entry : Entry) : Nat := entry.expiresAt + maxStale

def state (entry : Entry) (now : Nat) (serveStale : Bool) : EntryState :=
  if now < entry.expiresAt then .fresh
  else if serveStale && now < entry.staleDeadline then .stale
  else .expired

/-- A refresh lease or a failure cooldown is still running. -/
def suppressed (entry : Entry) (now : Nat) : Bool :=
  entry.refreshSuppressedUntil.any fun deadline => now < deadline

end Entry

/-- The sizes the compiler gives the types an entry owns. -/
structure Layout where
  usize : Nat
  cachedAnswer : Nat
  record : Nat

def recordHeapAllowance : Nat := 48

/-- Blocks come in multiples of sixteen bytes. -/
def allocRounded (bytes : Nat) : Nat := (bytes + 15) / 16 * 16

def entryHeapBytes (layout : Layout) (key : CacheKey) (entry : Entry) : Nat :=
  let records := entry.answer.records.length
  let authorities := entry.answer.authorities.length
  allocRounded key.domain.length
    + allocRounded (2 * layout.usize + layout.cachedAnswer)
    + allocRounded (records * layout.record)
    + allocRounded (authorities * layout.record)
    + (records + authorities) * recordHeapAllowance

structure Shard where
  map : Table CacheKey Entry
  queue : List (CacheKey × Nat)
  nextSeq : Nat
  capacity : Nat
  byteCapacity : Nat
  bytes : Nat

namespace Shard

variable (layout : Layout) (shard : Shard)

def remove (key : CacheKey) : Shard :=
  match shard.map.lookup key with
  | some entry =>
    { shard with
      map := shard.map.erase key
      bytes := shard.bytes - entryHeapBytes layout key entry }
  | none => shard

/-- Pop nodes up to the first live one and drop its entry. With no live node
left an arbitrary entry goes. -/
def evictOldest : Shard :=
  match popLive Entry.seq shard.map shard.queue with
  | some (key, rest) => remove layout { shard with queue := rest } key
  | none =>
    match shard.map.entries.head? with
    | some e => remove layout { shard with queue := [] } e.1
    | none => { shard with queue := [] }

def overBounds : Bool :=
  shard.capacity < shard.map.size || shard.byteCapacity < shard.bytes

/-- The eviction loop of an insertion. -/
def evictOver : Nat → Shard → Shard
  | 0, shard => shard
  | fuel + 1, shard =>
    if shard.overBounds && 1 < shard.map.size then evictOver fuel (shard.evictOldest layout)
    else shard

def sweepQueue : Shard :=
  { shard with queue := shard.queue.filter (live Entry.seq shard.map) }

def compact : Shard :=
  if 2 * shard.capacity < shard.queue.length then shard.sweepQueue else shard

/-- The new entry in the table, with its node and its bytes. -/
def put (key : CacheKey) (answer : CachedAnswer) (ttlSeconds : Nat) (now : Nat) : Shard :=
  let entry : Entry := ⟨answer, now, seconds ttlSeconds, shard.nextSeq, none⟩
  let previous := ((shard.map.lookup key).map (entryHeapBytes layout key)).getD 0
  { shard with
    map := shard.map.insert key entry
    queue := shard.queue ++ [(key, shard.nextSeq)]
    nextSeq := shard.nextSeq + 1
    bytes := shard.bytes - previous + entryHeapBytes layout key entry }

def insert (key : CacheKey) (answer : CachedAnswer) (ttlSeconds : Nat) (now : Nat) : Shard :=
  let stored := shard.put layout key answer ttlSeconds now
  (evictOver layout stored.map.size stored).compact

def keeps (serveStale purgeStale : Bool) (now : Nat) (_key : CacheKey) (entry : Entry) : Bool :=
  match entry.state now serveStale with
  | .fresh => true
  | .stale => !purgeStale
  | .expired => false

def clean (serveStale purgeStale : Bool) (now : Nat) : Shard :=
  let kept := shard.map.retain (keeps serveStale purgeStale now)
  let cleaned := { shard with map := kept, bytes := kept.weight (entryHeapBytes layout) }
  if kept.size < shard.map.size then cleaned.sweepQueue else cleaned

def suppressRefresh (key : CacheKey) (cooldown : Nat) (now : Nat) : Shard :=
  { shard with
    map := shard.map.modify key fun entry =>
      { entry with refreshSuppressedUntil := some (now + cooldown) } }

def releaseRefreshClaim (key : CacheKey) : Shard :=
  { shard with
    map := shard.map.modify key fun entry => { entry with refreshSuppressedUntil := none } }

end Shard

structure DnsCacheConfig where
  maxEntries : Nat
  maxBytes : Nat
  minTtlSeconds : Nat
  maxTtlSeconds : Nat
  negativeTtlMaxSeconds : Nat
  serveStale : Bool
  deriving DecidableEq

def shardCount : Nat := 16

structure DnsCache where
  shards : Fin shardCount → Shard
  shardIndex : CacheKey → Fin shardCount
  minTtl : Nat
  maxTtl : Nat
  negativeTtlMax : Nat
  serveStale : Bool
  refreshClaimLease : Nat

/-- The smallest answer TTL, clamped. -/
def positiveTtl (records : List Record) (minTtl maxTtl : Nat) : Nat :=
  let ttl := ((records.map fun r => r.ttl.toNat).min?).getD maxTtl
  min (max ttl minTtl) maxTtl

/-- The MINIMUM field of a start-of-authority record: the last of the five
numbers its data ends with. -/
def RData.soaMinimum : RData → Option Nat
  | .other type data =>
    if type = 6 then
      some ((data.drop (data.length - 4)).foldl (fun n b => 256 * n + b.toNat) 0)
    else none
  | _ => none

/-- The first start-of-authority record of a reply with its MINIMUM. -/
def firstSoa (response : Message) : Option (Record × Nat) :=
  response.authorities.findSome? fun r => r.data.soaMinimum.map fun minimum => (r, minimum)

def negativeTtl (response : Message) (negativeTtlMax : Nat) : Nat :=
  min (((firstSoa response).map (·.2)).getD negativeTtlMax) negativeTtlMax

namespace DnsCache

/-- An empty cache; the index of a key is its hash. -/
def new (config : DnsCacheConfig) (refreshClaimLease : Nat)
    (shardIndex : CacheKey → Fin shardCount) : DnsCache where
  shards := fun _ => {
    map := ∅
    queue := []
    nextSeq := 0
    capacity := max (config.maxEntries / shardCount) 1
    byteCapacity := max (config.maxBytes / shardCount) 1
    bytes := 0 }
  shardIndex := shardIndex
  minTtl := config.minTtlSeconds
  maxTtl := max config.maxTtlSeconds config.minTtlSeconds
  negativeTtlMax := config.negativeTtlMaxSeconds
  serveStale := config.serveStale
  refreshClaimLease := refreshClaimLease

variable (layout : Layout) (cache : DnsCache)

/-- Work on one shard under its lock. -/
def onShard (i : Fin shardCount) (f : Shard → Shard) : DnsCache :=
  { cache with shards := Function.update cache.shards i (f (cache.shards i)) }

def entryOf (key : CacheKey) : Option Entry :=
  (cache.shards (cache.shardIndex key)).map.lookup key

/-- Read an entry and, on a stale hit, take the right to refresh it when it is
asked for and free. -/
def lookupInner (key : CacheKey) (claimRefresh : Bool) (now : Nat) : Lookup × DnsCache :=
  match cache.entryOf key with
  | none => (.miss, cache)
  | some entry =>
    if now < entry.expiresAt then
      (.fresh entry.answer (UInt32.ofNat (asSecs (entry.expiresAt - now))), cache)
    else if cache.serveStale && now < entry.staleDeadline then
      let claimed := claimRefresh && !entry.suppressed now
      (.stale entry.answer claimed,
        if claimed then
          cache.onShard (cache.shardIndex key) fun shard =>
            shard.suppressRefresh key cache.refreshClaimLease now
        else cache)
    else (.miss, cache)

def lookup (key : CacheKey) (now : Nat) : Lookup :=
  (cache.lookupInner key false now).1

def lookupAndClaimRefresh (key : CacheKey) (now : Nat) : Lookup × DnsCache :=
  cache.lookupInner key true now

def suppressRefresh (key : CacheKey) (cooldown : Nat) (now : Nat) : DnsCache :=
  cache.onShard (cache.shardIndex key) fun shard => shard.suppressRefresh key cooldown now

def releaseRefreshClaim (key : CacheKey) : DnsCache :=
  cache.onShard (cache.shardIndex key) fun shard => shard.releaseRefreshClaim key

/-- What a reply is cached as and for how long, if at all. -/
def cacheable (response : Message) : Option (CachedAnswer × Nat) :=
  if response.metadata.truncation then none
  else if response.answers ≠ [] then
    if response.metadata.responseCode ≠ .noError then none
    else some (⟨response.answers, [], .noError⟩,
      positiveTtl response.answers cache.minTtl cache.maxTtl)
  else if response.metadata.responseCode = .noError ∨
      response.metadata.responseCode = .nxDomain then
    some (⟨[], response.authorities, response.metadata.responseCode⟩,
      negativeTtl response cache.negativeTtlMax)
  else none

def insert (key : CacheKey) (answer : CachedAnswer) (ttlSeconds : Nat) (now : Nat) :
    DnsCache :=
  cache.onShard (cache.shardIndex key) fun shard => shard.insert layout key answer ttlSeconds now

def store (key : CacheKey) (response : Message) (now : Nat) : Bool × DnsCache :=
  match cache.cacheable response with
  | some (answer, ttl) => (true, cache.insert layout key answer ttl now)
  | none => (false, cache)

/-- The part of a clean that works on one shard. -/
def cleanShard (i : Fin shardCount) (purgeStale : Bool) (now : Nat) : DnsCache :=
  cache.onShard i fun shard => shard.clean layout cache.serveStale purgeStale now

end DnsCache

/-- What is done to the cache under one lock. -/
inductive CacheOp where
  | lookup (key : CacheKey)
  | lookupAndClaimRefresh (key : CacheKey)
  | suppressRefresh (key : CacheKey) (cooldown : Nat)
  | releaseRefreshClaim (key : CacheKey)
  | store (key : CacheKey) (response : Message)
  | cleanShard (i : Fin shardCount) (purgeStale : Bool)

namespace DnsCache

variable (layout : Layout)

def step (cache : DnsCache) (now : Nat) : CacheOp → DnsCache
  | .lookup key => (cache.lookupInner key false now).2
  | .lookupAndClaimRefresh key => (cache.lookupAndClaimRefresh key now).2
  | .suppressRefresh key cooldown => cache.suppressRefresh key cooldown now
  | .releaseRefreshClaim key => cache.releaseRefreshClaim key
  | .store key response => (cache.store layout key response now).2
  | .cleanShard i purgeStale => cache.cleanShard layout i purgeStale now

def run (cache : DnsCache) (history : List (Nat × CacheOp)) : DnsCache :=
  history.foldl (fun cache op => cache.step layout op.1 op.2) cache

end DnsCache

/-- The running total and the queue of a shard fit its table. -/
structure Shard.Accounted (layout : Layout) (shard : Shard) : Prop where
  bytes_eq : shard.bytes = shard.map.weight (entryHeapBytes layout)
  inOrder : InOrder Entry.seq shard.map shard.queue shard.nextSeq

structure Shard.Bounded (shard : Shard) : Prop where
  capacity_pos : 0 < shard.capacity
  entries_le : shard.map.size ≤ shard.capacity
  bytes_le : shard.bytes ≤ shard.byteCapacity ∨ shard.map.size ≤ 1
  queue_le : shard.queue.length ≤ 2 * shard.capacity

/-- One shard is another with some of its oldest entries gone, the newest among
those that stay. -/
structure Shard.Trimmed (before after : Shard) : Prop where
  capacity_eq : after.capacity = before.capacity
  byteCapacity_eq : after.byteCapacity = before.byteCapacity
  nextSeq_eq : after.nextSeq = before.nextSeq
  queue_le : after.queue.length ≤ before.queue.length
  kept : ∀ key entry, after.map.lookup key = some entry → before.map.lookup key = some entry
  oldest : ∀ key entry, before.map.lookup key = some entry → after.map.lookup key = none →
    ∀ key' entry', after.map.lookup key' = some entry' → entry.seq < entry'.seq
  newest : ∀ key entry, before.map.lookup key = some entry →
    (∀ key' entry', before.map.lookup key' = some entry' → entry'.seq ≤ entry.seq) →
    after.map.lookup key = some entry

namespace Shard

variable {layout : Layout} {shard : Shard}

lemma Trimmed.refl (shard : Shard) : Trimmed shard shard where
  capacity_eq := rfl
  byteCapacity_eq := rfl
  nextSeq_eq := rfl
  queue_le := Nat.le_refl _
  kept := fun _ _ h => h
  oldest := fun key entry h hnone => by simp [h] at hnone
  newest := fun _ _ h _ => h

lemma Trimmed.trans (hab : Trimmed a b) (hbc : Trimmed b c) : Trimmed a c where
  capacity_eq := hbc.capacity_eq.trans hab.capacity_eq
  byteCapacity_eq := hbc.byteCapacity_eq.trans hab.byteCapacity_eq
  nextSeq_eq := hbc.nextSeq_eq.trans hab.nextSeq_eq
  queue_le := hbc.queue_le.trans hab.queue_le
  kept := fun key entry h => hab.kept key entry (hbc.kept key entry h)
  oldest := by
    intro key entry hbefore hafter key' entry' hkept
    -- the entry went in the first part or in the second
    cases hmid : b.map.lookup key with
    | none => exact hab.oldest key entry hbefore hmid key' entry' (hbc.kept key' entry' hkept)
    | some mid =>
      have heq := hab.kept key mid hmid
      rw [hbefore, Option.some.injEq] at heq
      exact hbc.oldest key entry (heq ▸ hmid) hafter key' entry' hkept
  newest := by
    intro key entry hbefore hnewest
    refine hbc.newest key entry (hab.newest key entry hbefore hnewest) fun key' entry' hk' => ?_
    exact hnewest key' entry' (hab.kept key' entry' hk')

lemma Accounted.remove (h : Accounted layout shard) {queue : List (CacheKey × Nat)} (hk : shard.map.lookup key = some entry)
    (hqueue : InOrder Entry.seq (shard.map.erase key) queue shard.nextSeq) :
    remove layout { shard with queue := queue } key = { shard with
          map := shard.map.erase key, queue := queue, bytes := shard.bytes - entryHeapBytes layout key entry } ∧
      Accounted layout (remove layout { shard with queue := queue } key) := by
  have heq : Shard.remove layout { shard with queue := queue } key =
      { shard with
        map := shard.map.erase key
        queue := queue
        bytes := shard.bytes - entryHeapBytes layout key entry } := by
    simp [Shard.remove, hk]
  refine ⟨heq, ?_⟩
  rw [heq]
  refine ⟨?_, hqueue⟩
  have hweight := shard.map.weight_erase (entryHeapBytes layout) hk
  show shard.bytes - entryHeapBytes layout key entry =
    Table.weight (entryHeapBytes layout) (shard.map.erase key)
  rw [h.bytes_eq]
  omega

lemma Accounted.evictOldest (h : Accounted layout shard) (hsize : 1 < shard.map.size) :
    Accounted layout (shard.evictOldest layout) ∧ Trimmed shard (shard.evictOldest layout) ∧
      (shard.evictOldest layout).map.size + 1 = shard.map.size := by
  obtain ⟨k₀, v₀, hk₀⟩ := shard.map.exists_of_size_pos (Nat.zero_lt_of_lt hsize)
  obtain ⟨⟨key, rest⟩, hpop⟩ := Option.isSome_iff_exists.mp (h.inOrder.popLive_isSome hk₀)
  obtain ⟨entry, hk, hrest, hleast⟩ := h.inOrder.popLive hpop
  obtain ⟨heq, haccounted⟩ := h.remove hk hrest
  have hevict : shard.evictOldest layout = Shard.remove layout { shard with queue := rest } key := by
    simp [Shard.evictOldest, hpop]
  rw [hevict]
  refine ⟨haccounted, ?_, ?_⟩
  · rw [heq]
    refine ⟨rfl, rfl, rfl, (popLive_length Entry.seq hpop).le, ?_, ?_, ?_⟩
    · intro key' entry' hk'
      have hne : key' ≠ key := by
        rintro rfl
        simp at hk'
      exact (AList.lookup_erase_ne hne).symm.trans hk'
    · intro gone goneEntry hgone hnone key' entry' hk'
      have hne : key' ≠ key := by
        rintro rfl
        simp at hk'
      have hgk : gone = key := by
        by_contra hgk
        simp [AList.lookup_erase_ne hgk, hgone] at hnone
      subst hgk
      rw [hgone, Option.some.injEq] at hk
      exact hk ▸ hleast key' entry' ((AList.lookup_erase_ne hne).symm.trans hk') hne
    · intro newest newestEntry hnewest hmax
      have hne : newest ≠ key := by
        rintro rfl
        rw [hnewest, Option.some.injEq] at hk
        -- the popped entry would be both the smallest and the largest of several
        obtain ⟨other, otherEntry, hother⟩ := Table.exists_of_size_pos (shard.map.erase newest)
          (by have := shard.map.size_erase hnewest; omega)
        have hne : other ≠ newest := by
          rintro rfl
          simp at hother
        rw [AList.lookup_erase_ne hne] at hother
        have hlt := hleast other otherEntry hother hne
        have hle := hmax other otherEntry hother
        rw [hk] at hle
        omega
      exact (AList.lookup_erase_ne hne).trans hnewest
  · rw [heq]
    exact shard.map.size_erase hk

lemma Accounted.evictOver (fuel : Nat) (h : Accounted layout shard) :
    Accounted layout (evictOver layout fuel shard) ∧ Trimmed shard (evictOver layout fuel shard) ∧
      (shard.map.size ≤ fuel → (Shard.evictOver layout fuel shard).overBounds = true →
        (Shard.evictOver layout fuel shard).map.size ≤ 1) := by
  induction fuel generalizing shard with
  | zero => exact ⟨h, .refl shard, fun hsize _ => hsize.trans (Nat.zero_le 1)⟩
  | succ fuel ih =>
    rw [Shard.evictOver]
    split
    next hover =>
      rw [Bool.and_eq_true, decide_eq_true_eq] at hover
      obtain ⟨haccounted, htrimmed, hsize⟩ := h.evictOldest hover.2
      obtain ⟨haccounted', htrimmed', hdone⟩ := ih haccounted
      exact ⟨haccounted', htrimmed.trans htrimmed', fun hle => hdone (by omega)⟩
    next hover =>
      refine ⟨h, .refl shard, fun _ hbounds => ?_⟩
      rw [hbounds] at hover
      simpa using hover

lemma Accounted.sweepQueue (h : Accounted layout shard) : Accounted layout shard.sweepQueue :=
  ⟨h.bytes_eq, h.inOrder.sweep⟩

lemma Accounted.compact (h : Accounted layout shard) :
    Accounted layout shard.compact ∧ shard.compact.map = shard.map ∧
      shard.compact.capacity = shard.capacity ∧
      shard.compact.byteCapacity = shard.byteCapacity ∧ shard.compact.bytes = shard.bytes ∧
      shard.compact.nextSeq = shard.nextSeq ∧ (shard.map.size ≤ shard.capacity →
        shard.compact.queue.length ≤ 2 * shard.capacity) := by
  unfold Shard.compact
  split
  next =>
    refine ⟨h.sweepQueue, rfl, rfl, rfl, rfl, rfl, fun hle => ?_⟩
    have := h.inOrder.length_sweep
    show (shard.queue.filter (live Entry.seq shard.map)).length ≤ 2 * shard.capacity
    omega
  next hsmall => exact ⟨h, rfl, rfl, rfl, rfl, rfl, fun _ => Nat.le_of_not_lt hsmall⟩

lemma Accounted.put (h : Accounted layout shard) (key : CacheKey) (answer : CachedAnswer)
    (ttlSeconds : Nat) (now : Nat) :
    Accounted layout (shard.put layout key answer ttlSeconds now) := by
  refine ⟨?_, h.inOrder.push key rfl⟩
  simp only [Shard.put, Table.weight_insert, h.bytes_eq]
  cases hk : shard.map.lookup key with
  | none => simp [Table.erase_of_none _ hk]
  | some previous =>
    have := shard.map.weight_erase (entryHeapBytes layout) hk
    simp only [Option.map_some, Option.getD_some]
    omega

lemma Accounted.insert (h : Accounted layout shard) (hpos : 0 < shard.capacity) (key : CacheKey)
    (answer : CachedAnswer) (ttlSeconds : Nat) (now : Nat) :
    Accounted layout (shard.insert layout key answer ttlSeconds now) ∧
      Bounded (shard.insert layout key answer ttlSeconds now) ∧
      ∃ trimmed, Trimmed (shard.put layout key answer ttlSeconds now) trimmed ∧
        (shard.insert layout key answer ttlSeconds now).map = trimmed.map ∧
        (shard.insert layout key answer ttlSeconds now).nextSeq = shard.nextSeq + 1 := by
  have hput := h.put key answer ttlSeconds now
  obtain ⟨haccounted, htrimmed, hdone⟩ :=
    hput.evictOver (shard.put layout key answer ttlSeconds now).map.size
  obtain ⟨hcompact, hmap, hcap, hbytecap, hbytes, hseq, hqueue⟩ := haccounted.compact
  have hcapacity : (Shard.evictOver layout (shard.put layout key answer ttlSeconds now).map.size
      (shard.put layout key answer ttlSeconds now)).capacity = shard.capacity :=
    htrimmed.capacity_eq
  have hover := hdone (Nat.le_refl _)
  simp only [Shard.overBounds, Bool.or_eq_true, decide_eq_true_eq] at hover
  have hentries : (Shard.evictOver layout (shard.put layout key answer ttlSeconds now).map.size
      (shard.put layout key answer ttlSeconds now)).map.size ≤ shard.capacity := by
    omega
  refine ⟨hcompact, ⟨?_, ?_, ?_, ?_⟩, _, htrimmed, hmap, hseq.trans htrimmed.nextSeq_eq⟩
  · exact (hcap.trans hcapacity).symm ▸ hpos
  · show Table.size (Shard.compact _).map ≤ (Shard.compact _).capacity
    rw [hmap, hcap, hcapacity]
    exact hentries
  · show (Shard.compact _).bytes ≤ (Shard.compact _).byteCapacity ∨
      Table.size (Shard.compact _).map ≤ 1
    rw [hmap, hbytes, hbytecap]
    by_contra hneither
    rw [not_or] at hneither
    exact hneither.2 (hover (.inr (Nat.lt_of_not_le hneither.1)))
  · show (Shard.compact _).queue.length ≤ 2 * (Shard.compact _).capacity
    rw [hcap]
    exact hqueue (hcapacity.symm ▸ hentries)

lemma Accounted.clean (h : Accounted layout shard) (hb : Bounded shard)
    (serveStale purgeStale : Bool) (now : Nat) :
    Accounted layout (shard.clean layout serveStale purgeStale now) ∧
      Bounded (shard.clean layout serveStale purgeStale now) ∧
      (shard.clean layout serveStale purgeStale now).map =
        shard.map.retain (keeps serveStale purgeStale now) ∧
      (shard.clean layout serveStale purgeStale now).nextSeq = shard.nextSeq := by
  have hkept : Accounted layout { shard with
      map := shard.map.retain (keeps serveStale purgeStale now)
      bytes := (shard.map.retain (keeps serveStale purgeStale now)).weight
        (entryHeapBytes layout) } := ⟨rfl, h.inOrder.retain _⟩
  have hsize := shard.map.size_retain_le (keeps serveStale purgeStale now)
  have hentries := hsize.trans hb.entries_le
  have hbytes : (shard.map.retain (keeps serveStale purgeStale now)).weight
        (entryHeapBytes layout) ≤ shard.byteCapacity ∨
      (shard.map.retain (keeps serveStale purgeStale now)).size ≤ 1 :=
    hb.bytes_le.imp
      (fun hle => (shard.map.weight_retain_le _ _).trans (h.bytes_eq ▸ hle)) hsize.trans
  unfold Shard.clean
  dsimp only
  split
  next =>
    refine ⟨hkept.sweepQueue, ⟨hb.capacity_pos, hentries, hbytes, ?_⟩, rfl, rfl⟩
    exact (List.length_filter_le _ _).trans hb.queue_le
  next => exact ⟨hkept, ⟨hb.capacity_pos, hentries, hbytes, hb.queue_le⟩, rfl, rfl⟩

lemma Accounted.modify (h : Accounted layout shard) (hb : Bounded shard) (key : CacheKey)
    (f : Entry → Entry) (hseq : ∀ entry, (f entry).seq = entry.seq)
    (hbytes : ∀ entry, entryHeapBytes layout key (f entry) = entryHeapBytes layout key entry) :
    Accounted layout { shard with map := shard.map.modify key f } ∧
      Bounded { shard with map := shard.map.modify key f } := by
  have hsize := shard.map.size_modify key f
  refine ⟨⟨?_, h.inOrder.modify key f hseq⟩, ⟨hb.capacity_pos, ?_, ?_, hb.queue_le⟩⟩
  · exact h.bytes_eq.trans (shard.map.weight_modify _ key f hbytes).symm
  · exact hsize.symm ▸ hb.entries_le
  · exact hb.bytes_le.imp_right fun hle => hsize.symm ▸ hle

end Shard

def DnsCache.insertedInto (cache : DnsCache) (i : Fin shardCount) : CacheOp → Option CacheKey
  | .store key response =>
    if (cache.cacheable response).isSome ∧ cache.shardIndex key = i then some key else none
  | _ => none

/-- The keys inserted into a shard, first to last. -/
def DnsCache.insertions (cache : DnsCache) (history : List (Nat × CacheOp))
    (i : Fin shardCount) : List CacheKey :=
  history.filterMap fun op => cache.insertedInto i op.2

lemma DnsCache.insertions_snoc (cache : DnsCache) (history : List (Nat × CacheOp))
    (op : Nat × CacheOp) (i : Fin shardCount) :
    cache.insertions (history ++ [op]) i =
      cache.insertions history i ++ (cache.insertedInto i op.2).toList := by
  cases h : cache.insertedInto i op.2 <;> simp [insertions, h]

/-- The last insertion of a key among some was the one with this number. -/
def LastInsertion (keys : List CacheKey) (key : CacheKey) (n : Nat) : Prop :=
  ∃ before after, keys = before ++ key :: after ∧ key ∉ after ∧ before.length = n

lemma LastInsertion.self (keys : List CacheKey) (key : CacheKey) :
    LastInsertion (keys ++ [key]) key keys.length :=
  ⟨keys, [], rfl, by simp, rfl⟩

lemma LastInsertion.snoc (h : LastInsertion keys key n) (hne : key ≠ key') :
    LastInsertion (keys ++ [key']) key n := by
  obtain ⟨before, after, rfl, hafter, hn⟩ := h
  exact ⟨before, after ++ [key'], by simp, by simp [hafter, hne], hn⟩

lemma LastInsertion.unique
    (h : LastInsertion keys key n) (h' : LastInsertion keys key n') : n = n' := by
  obtain ⟨before, after, rfl, hafter, rfl⟩ := h
  obtain ⟨before', after', heq, hafter', rfl⟩ := h'
  -- the shorter part before would leave the key in the longer part after
  rcases List.append_eq_append_iff.mp heq with ⟨mid, hbefore', hrest⟩ | ⟨mid, hbefore, hrest⟩
  all_goals
    cases mid with
    | nil => simp_all
    | cons first mid => simp_all

/-- What a shard is after a history that inserted some keys into it. -/
structure Shard.Holds (layout : Layout) (keys : List CacheKey) (shard : Shard) : Prop where
  accounted : shard.Accounted layout
  bounded : shard.Bounded
  nextSeq_eq : shard.nextSeq = keys.length
  last : ∀ key entry, shard.map.lookup key = some entry → LastInsertion keys key entry.seq

namespace Shard

variable {layout : Layout} {shard : Shard} {keys : List CacheKey}

lemma put_last (h : Holds layout keys shard) (key : CacheKey) (answer : CachedAnswer)
    (ttlSeconds : Nat) (now : Nat)
    (hk : (shard.put layout key answer ttlSeconds now).map.lookup key' = some entry) :
    LastInsertion (keys ++ [key]) key' entry.seq := by
  simp only [put] at hk
  by_cases hkk : key' = key
  · subst hkk
    rw [AList.lookup_insert, Option.some.injEq] at hk
    rw [← hk]
    exact h.nextSeq_eq ▸ .self keys key'
  · rw [AList.lookup_insert_ne hkk] at hk
    exact (h.last key' entry hk).snoc hkk

lemma Holds.insert (h : Holds layout keys shard) (key : CacheKey) (answer : CachedAnswer)
    (ttlSeconds : Nat) (now : Nat) :
    Holds layout (keys ++ [key]) (shard.insert layout key answer ttlSeconds now) := by
  obtain ⟨haccounted, hbounded, trimmed, htrimmed, hmap, hseq⟩ :=
    h.accounted.insert h.bounded.capacity_pos key answer ttlSeconds now
  refine ⟨haccounted, hbounded, ?_, fun key' entry hk => ?_⟩
  · rw [hseq, h.nextSeq_eq, List.length_append, List.length_singleton]
  · rw [hmap] at hk
    exact put_last h key answer ttlSeconds now (htrimmed.kept key' entry hk)

lemma Holds.clean (h : Holds layout keys shard) (serveStale purgeStale : Bool) (now : Nat) :
    Holds layout keys (shard.clean layout serveStale purgeStale now) := by
  obtain ⟨haccounted, hbounded, hmap, hseq⟩ :=
    h.accounted.clean h.bounded serveStale purgeStale now
  refine ⟨haccounted, hbounded, hseq.trans h.nextSeq_eq, fun key entry hk => ?_⟩
  rw [hmap, Table.lookup_retain, Option.filter_eq_some_iff] at hk
  exact h.last key entry hk.1

lemma Holds.modify (h : Holds layout keys shard) (key : CacheKey) (deadline : Option Nat) :
    Holds layout keys { shard with
      map := shard.map.modify key fun entry =>
        { entry with refreshSuppressedUntil := deadline } } := by
  obtain ⟨haccounted, hbounded⟩ := h.accounted.modify h.bounded key
    (fun entry => { entry with refreshSuppressedUntil := deadline }) (fun _ => rfl) fun _ => rfl
  refine ⟨haccounted, hbounded, h.nextSeq_eq, fun key' entry hk => ?_⟩
  rw [Table.lookup_modify] at hk
  split at hk
  next hkk =>
    obtain ⟨old, hold, rfl⟩ := Option.map_eq_some_iff.mp hk
    exact h.last key' old (hkk ▸ hold)
  next => exact h.last key' entry hk

end Shard

namespace DnsCache

variable (layout : Layout) (cache : DnsCache)

lemma onShard_same (i : Fin shardCount) (f : Shard → Shard) :
    (cache.onShard i f).shards i = f (cache.shards i) := by
  simp [onShard]

lemma onShard_other (h : i ≠ j) (f : Shard → Shard) :
    (cache.onShard j f).shards i = cache.shards i := by
  simp [onShard, h]

inductive ShardStep (now : Nat) (i : Fin shardCount) :
    CacheOp → Shard → Prop
  | same {op : CacheOp} : cache.insertedInto i op = none → ShardStep now i op (cache.shards i)
  | suppression {op : CacheOp} (key : CacheKey) (deadline : Option Nat) :
      cache.insertedInto i op = none →
      ShardStep now i op { cache.shards i with
        map := (cache.shards i).map.modify key fun entry =>
          { entry with refreshSuppressedUntil := deadline } }
  | clean {op : CacheOp} (purgeStale : Bool) :
      cache.insertedInto i op = none →
      ShardStep now i op ((cache.shards i).clean layout cache.serveStale purgeStale now)
  | insert {key : CacheKey} {response : Message} {answer : CachedAnswer} {ttl : Nat} :
      cache.cacheable response = some (answer, ttl) → cache.shardIndex key = i →
      ShardStep now i (.store key response)
        ((cache.shards i).insert layout key answer ttl now)

lemma shardStep_suppression (now : Nat) (i : Fin shardCount)
    (hop : cache.insertedInto i op = none) (key : CacheKey) (deadline : Option Nat) :
    ShardStep layout cache now i op ((cache.onShard (cache.shardIndex key) fun shard =>
      { shard with
        map := shard.map.modify key fun entry =>
          { entry with refreshSuppressedUntil := deadline } }).shards i) := by
  by_cases hi : i = cache.shardIndex key
  · subst hi
    rw [onShard_same]
    exact .suppression key deadline hop
  · rw [onShard_other cache hi]
    exact .same hop

lemma step_shard (now : Nat) (op : CacheOp) (i : Fin shardCount) :
    ShardStep layout cache now i op ((cache.step layout now op).shards i) := by
  have hlookup : ∀ (op : CacheOp), cache.insertedInto i op = none → ∀ key claim,
      ShardStep layout cache now i op ((cache.lookupInner key claim now).2.shards i) := by
    intro op hop key claim
    unfold lookupInner
    split
    · exact .same hop
    · split
      · exact .same hop
      · split
        · dsimp only
          split
          · exact cache.shardStep_suppression layout now i hop key _
          · exact .same hop
        · exact .same hop
  cases op with
  | lookup key => exact hlookup _ rfl key false
  | lookupAndClaimRefresh key => exact hlookup _ rfl key true
  | suppressRefresh key cooldown | releaseRefreshClaim key =>
    exact cache.shardStep_suppression layout now i rfl key _
  | store key response =>
    simp only [step, store]
    split
    next answer ttl hstored =>
      by_cases hi : i = cache.shardIndex key
      · rw [hi, insert, onShard_same]
        exact .insert hstored rfl
      · rw [insert, onShard_other cache hi]
        exact .same (by simp [insertedInto, Ne.symm hi])
    next hnot => exact .same (by simp [insertedInto, hnot])
  | cleanShard j purgeStale =>
    by_cases hi : i = j
    · subst hi
      rw [step, cleanShard, onShard_same]
      exact .clean purgeStale rfl
    · rw [step, cleanShard, onShard_other cache hi]
      exact .same rfl

lemma step_settings (now : Nat) (op : CacheOp) :
    ∃ shards, cache.step layout now op = { cache with shards := shards } := by
  have hlookup : ∀ key claim,
      ∃ shards, (cache.lookupInner key claim now).2 = { cache with shards := shards } := by
    intro key claim
    unfold lookupInner
    split
    · exact ⟨_, rfl⟩
    · split
      · exact ⟨_, rfl⟩
      · split
        · dsimp only
          split <;> exact ⟨_, rfl⟩
        · exact ⟨_, rfl⟩
  cases op with
  | lookup key => exact hlookup key false
  | lookupAndClaimRefresh key => exact hlookup key true
  | suppressRefresh | releaseRefreshClaim | cleanShard => exact ⟨_, rfl⟩
  | store key response =>
    simp only [step, store]
    split <;> exact ⟨_, rfl⟩

lemma run_snoc (history : List (Nat × CacheOp)) (op : Nat × CacheOp) :
    cache.run layout (history ++ [op]) = (cache.run layout history).step layout op.1 op.2 := by
  simp [run]

lemma run_settings (history : List (Nat × CacheOp)) :
    ∃ shards, cache.run layout history = { cache with shards := shards } := by
  induction history using List.reverseRecOn with
  | nil => exact ⟨_, rfl⟩
  | append_singleton history op ih =>
    obtain ⟨shards, hshards⟩ := ih
    obtain ⟨shards', hshards'⟩ :=
      step_settings layout { cache with shards := shards } op.1 op.2
    exact ⟨shards', by rw [run_snoc, hshards]; exact hshards'⟩

lemma holds_step {cache : DnsCache} {i : Fin shardCount} {keys : List CacheKey}
    (h : (cache.shards i).Holds layout keys) (now : Nat) (op : CacheOp) :
    ((cache.step layout now op).shards i).Holds layout
      (keys ++ (cache.insertedInto i op).toList) := by
  have hstep := cache.step_shard layout now op i
  generalize (cache.step layout now op).shards i = after at hstep
  cases hstep with
  | same hnone => simpa [hnone] using h
  | suppression key deadline hnone => simpa [hnone] using h.modify key deadline
  | clean purgeStale hnone => simpa [hnone] using h.clean cache.serveStale purgeStale now
  | insert hstored hindex =>
    simpa [insertedInto, hstored, hindex] using h.insert _ _ _ now

lemma holds_run (config : DnsCacheConfig) (refreshClaimLease : Nat)
    (shardIndex : CacheKey → Fin shardCount) (history : List (Nat × CacheOp)) (i : Fin shardCount) :
    (((new config refreshClaimLease shardIndex).run layout history).shards i).Holds layout
      ((new config refreshClaimLease shardIndex).insertions history i) := by
  induction history using List.reverseRecOn with
  | nil =>
    refine ⟨⟨rfl, .empty⟩, ⟨?_, ?_, ?_, ?_⟩, rfl, fun key entry hk => ?_⟩
    · exact Nat.lt_of_lt_of_le Nat.zero_lt_one (Nat.le_max_right _ _)
    · exact Nat.zero_le _
    · exact .inr (Nat.zero_le _)
    · exact Nat.zero_le _
    · simp [run, new] at hk
  | append_singleton history op ih =>
    obtain ⟨shards, hshards⟩ :=
      run_settings layout (new config refreshClaimLease shardIndex) history
    rw [run_snoc]
    have hstep := holds_step layout ih op.1 op.2
    rw [hshards] at hstep ⊢
    rw [insertions_snoc]
    exact hstep

end DnsCache

/-- What is right about a shard between steps. -/
structure Shard.Sound (layout : Layout) (shard : Shard) : Prop where
  bytes_eq : shard.bytes =
    (shard.map.entries.map fun e => entryHeapBytes layout e.1 e.2).sum
  one_node : ∀ key entry, shard.map.lookup key = some entry →
    (shard.queue.filter fun node => node.2 = entry.seq) = [(key, entry.seq)]
  in_order : (shard.queue.filter (live Entry.seq shard.map)).Pairwise fun a b => a.2 < b.2
  entries_le : shard.map.size ≤ shard.capacity
  bytes_le : shard.bytes ≤ shard.byteCapacity ∨ shard.map.size ≤ 1
  queue_le : shard.queue.length ≤ 2 * shard.capacity

lemma Shard.Holds.sound {layout : Layout} {keys : List CacheKey} {shard : Shard}
    (h : shard.Holds layout keys) : shard.Sound layout where
  bytes_eq := h.accounted.bytes_eq
  one_node := fun _ _ hk => h.accounted.inOrder.nodes_of_entry hk
  in_order := h.accounted.inOrder.increasing.filter _
  entries_le := h.bounded.entries_le
  bytes_le := h.bounded.bytes_le
  queue_le := h.bounded.queue_le

/-- After every history every shard is sound; one more insertion keeps its own
entry, and each entry it evicts was last inserted before every entry it
leaves. -/
theorem shards_sound (layout : Layout) (config : DnsCacheConfig) (refreshClaimLease : Nat)
    (shardIndex : CacheKey → Fin shardCount) (history : List (Nat × CacheOp)) (i : Fin shardCount) :
    let shard := ((DnsCache.new config refreshClaimLease shardIndex).run layout history).shards i
    let keys := (DnsCache.new config refreshClaimLease shardIndex).insertions history i
    shard.Sound layout ∧
      ∀ key answer ttlSeconds now,
        let after := shard.insert layout key answer ttlSeconds now
        after.Sound layout ∧
          after.map.lookup key =
            some ⟨answer, now, seconds ttlSeconds, shard.nextSeq, none⟩ ∧
          (∀ other, other ≠ key → after.map.lookup other = shard.map.lookup other ∨
            after.map.lookup other = none) ∧
          ∀ evicted left n m,
            evicted ≠ key → (shard.map.lookup evicted).isSome →
            after.map.lookup evicted = none → (after.map.lookup left).isSome →
            LastInsertion (keys ++ [key]) evicted n → LastInsertion (keys ++ [key]) left m →
            n < m := by
  intro shard keys
  have h : shard.Holds layout keys :=
    DnsCache.holds_run layout config refreshClaimLease shardIndex history i
  refine ⟨h.sound, fun key answer ttlSeconds now => ?_⟩
  intro after
  have hafter : after.Holds layout (keys ++ [key]) := h.insert key answer ttlSeconds now
  obtain ⟨-, -, trimmed, htrimmed, hmap, -⟩ :=
    h.accounted.insert h.bounded.capacity_pos key answer ttlSeconds now
  have hput : (shard.put layout key answer ttlSeconds now).map.lookup key =
      some ⟨answer, now, seconds ttlSeconds, shard.nextSeq, none⟩ := AList.lookup_insert _
  have hothers : ∀ other, other ≠ key →
      (shard.put layout key answer ttlSeconds now).map.lookup other = shard.map.lookup other :=
    fun other hne => AList.lookup_insert_ne hne
  refine ⟨hafter.sound, ?_, ?_, ?_⟩
  · rw [hmap]
    refine htrimmed.newest key _ hput fun key' entry' hk' => ?_
    have hlt := (h.accounted.put key answer ttlSeconds now).inOrder.seq_lt hk'
    exact Nat.le_of_lt_succ hlt
  · intro other hne
    rw [hmap]
    cases hother : trimmed.map.lookup other with
    | none => exact .inr rfl
    | some entry =>
      rw [← hothers other hne]
      exact .inl (htrimmed.kept other entry hother).symm
  · intro evicted left n m hne hevicted hgone hleft hn hm
    obtain ⟨entry, hentry⟩ := Option.isSome_iff_exists.mp hevicted
    obtain ⟨entry', hentry'⟩ := Option.isSome_iff_exists.mp hleft
    have hbefore := (hothers evicted hne).trans hentry
    have hseq := Shard.put_last h key answer ttlSeconds now hbefore
    rw [hn.unique hseq, hm.unique (hafter.last left entry' hentry')]
    refine htrimmed.oldest evicted entry hbefore ?_ left entry' ?_
    · exact hmap ▸ hgone
    · exact hmap ▸ hentry'

end FastAdHunter.Dns
