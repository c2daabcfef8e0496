import FastAdHunter.Dns.Cache

/-!
# How long a cached answer lives

Where an entry comes from, what a lookup says about it at a later instant, and
how the lifetime it was stored under compares with what the reply permits. A
positive answer lives for its smallest TTL within the configured bounds. A
negative answer lives for the MINIMUM field of the first start-of-authority
record, up to the cap: the TTL of that record itself is not looked at.
-/

namespace FastAdHunter.Dns

open Lib

section Provenance

variable (layout : Layout) (cache : DnsCache)

/-- An entry was stored by a step of the history. -/
def StoredIn (history : List (Nat × CacheOp)) (key : CacheKey) (entry : Entry) : Prop :=
  ∃ response ttl, (entry.insertedAt, .store key response) ∈ history ∧
    cache.cacheable response = some (entry.answer, ttl) ∧ entry.ttl = seconds ttl

variable {cache}

lemma StoredIn.snoc (h : StoredIn cache history key entry) (op : Nat × CacheOp) :
    StoredIn cache (history ++ [op]) key entry := by
  obtain ⟨response, ttl, hmem, hstored, httl⟩ := h
  exact ⟨response, ttl, List.mem_append_left _ hmem, hstored, httl⟩

lemma stored_in_run (config : DnsCacheConfig) (refreshClaimLease : Nat)
    (shardIndex : CacheKey → Fin shardCount) (history : List (Nat × CacheOp)) (i : Fin shardCount)
    (hk : (((DnsCache.new config refreshClaimLease shardIndex).run layout history).shards
      i).map.lookup key = some entry) :
    StoredIn (DnsCache.new config refreshClaimLease shardIndex) history key entry := by
  induction history using List.reverseRecOn generalizing entry with
  | nil => simp [DnsCache.run, DnsCache.new] at hk
  | append_singleton history op ih =>
    rw [DnsCache.run_snoc] at hk
    have hholds := DnsCache.holds_run layout config refreshClaimLease shardIndex history i
    obtain ⟨shards, hshards⟩ :=
      DnsCache.run_settings layout (DnsCache.new config refreshClaimLease shardIndex) history
    obtain ⟨now, op⟩ := op
    have hstep := DnsCache.step_shard layout
      ((DnsCache.new config refreshClaimLease shardIndex).run layout history) now op i
    generalize ((((DnsCache.new config refreshClaimLease shardIndex).run layout history).step
      layout now op).shards i) = after at hstep hk
    cases hstep with
    | same => exact (ih hk).snoc _
    | suppression key' deadline =>
      rw [Table.lookup_modify] at hk
      split at hk
      next hkk =>
        obtain ⟨old, hold, rfl⟩ := Option.map_eq_some_iff.mp hk
        -- a deadline is no part of what was stored
        have hstored : StoredIn _ history key old := ih (hkk ▸ hold)
        exact hstored.snoc _
      next => exact (ih hk).snoc _
    | clean purgeStale =>
      obtain ⟨-, -, hmap, -⟩ := hholds.accounted.clean hholds.bounded _ purgeStale now
      rw [hmap, Table.lookup_retain, Option.filter_eq_some_iff] at hk
      exact (ih hk.1).snoc _
    | @insert key' response answer ttl hstored hindex =>
      obtain ⟨-, -, trimmed, htrimmed, hmap, -⟩ :=
        hholds.accounted.insert hholds.bounded.capacity_pos key' answer ttl now
      rw [hmap] at hk
      have hput := htrimmed.kept key entry hk
      by_cases hkk : key = key'
      · subst hkk
        rw [Shard.put, AList.lookup_insert, Option.some.injEq] at hput
        subst hput
        refine ⟨response, ttl, by simp, ?_, rfl⟩
        rw [hshards] at hstored
        exact hstored
      · rw [Shard.put, AList.lookup_insert_ne hkk] at hput
        exact (ih hput).snoc _

end Provenance

section Reading

variable {cache : DnsCache} {key : CacheKey} {now : Nat}

lemma lookup_fresh (h : cache.lookup key now = .fresh answer remaining) :
    ∃ entry, cache.entryOf key = some entry ∧ entry.answer = answer ∧
      now < entry.expiresAt ∧ seconds remaining.toNat ≤ entry.expiresAt - now := by
  unfold DnsCache.lookup DnsCache.lookupInner at h
  split at h
  · exact Lookup.noConfusion h
  next entry hentry =>
    split at h
    next hlt =>
      simp only [Lookup.fresh.injEq] at h
      refine ⟨entry, hentry, h.1, hlt, ?_⟩
      rw [← h.2, UInt32.toNat_ofNat']
      have hmod := Nat.mod_le (asSecs (entry.expiresAt - now)) (2 ^ 32)
      have hdiv := Nat.div_mul_le_self (entry.expiresAt - now) 1000000000
      exact (Nat.mul_le_mul_right _ hmod).trans hdiv
    next =>
      split at h <;> exact Lookup.noConfusion h

lemma lookup_stale (h : cache.lookup key now = .stale answer claimed) :
    cache.serveStale = true ∧ ∃ entry, cache.entryOf key = some entry ∧ entry.answer = answer ∧
      entry.expiresAt ≤ now ∧ now < entry.staleDeadline := by
  unfold DnsCache.lookup DnsCache.lookupInner at h
  split at h
  · exact Lookup.noConfusion h
  next entry hentry =>
    split at h
    · exact Lookup.noConfusion h
    next hge =>
      split at h
      next hstale =>
        rw [Bool.and_eq_true, decide_eq_true_eq] at hstale
        simp only [Lookup.stale.injEq] at h
        exact ⟨hstale.1, entry, hentry, h.1, Nat.le_of_not_lt hge, hstale.2⟩
      · exact Lookup.noConfusion h

end Reading

section Lifetimes

/-- A lifetime a reply permits: the smallest answer TTL within the configured
bounds, and for a negative answer no more than the cap, the MINIMUM field of its
SOA record and the TTL of that record. -/
structure Permitted (config : DnsCacheConfig) (response : Message) (ttl : Nat) : Prop where
  positive : response.answers ≠ [] → ∃ smallest ∈ response.answers,
    (∀ r ∈ response.answers, smallest.ttl.toNat ≤ r.ttl.toNat) ∧
      ttl = max config.minTtlSeconds
        (min smallest.ttl.toNat (max config.maxTtlSeconds config.minTtlSeconds))
  negative : response.answers = [] → ttl ≤ config.negativeTtlMaxSeconds ∧
    ∀ soa minimum, firstSoa response = some (soa, minimum) →
      ttl ≤ minimum ∧ ttl ≤ soa.ttl.toNat

def NegativeReply (response : Message) : Prop :=
  response.metadata.truncation = false ∧ response.answers = [] ∧
    (response.metadata.responseCode = .noError ∨ response.metadata.responseCode = .nxDomain)

/-- The TTL of the SOA record is not below both its MINIMUM field and the
cap. -/
def SoaOutlasts (config : DnsCacheConfig) (response : Message) : Prop :=
  ∀ soa minimum, firstSoa response = some (soa, minimum) →
    min minimum config.negativeTtlMaxSeconds ≤ soa.ttl.toNat

variable (config : DnsCacheConfig) (refreshClaimLease : Nat)
  (shardIndex : CacheKey → Fin shardCount)

lemma negativeTtl_le (response : Message) (cap : Nat)
    (h : firstSoa response = some (soa, minimum)) : negativeTtl response cap = min minimum cap := by
  simp [negativeTtl, h]

lemma positiveTtl_permitted (records : List Record) (hne : records ≠ []) (minTtl maxTtl : Nat)
    (hle : minTtl ≤ maxTtl) :
    ∃ smallest ∈ records, (∀ r ∈ records, smallest.ttl.toNat ≤ r.ttl.toNat) ∧
      positiveTtl records minTtl maxTtl = max minTtl (min smallest.ttl.toNat maxTtl) := by
  have hmap : records.map (fun r => r.ttl.toNat) ≠ [] := by simpa using hne
  obtain ⟨least, hleast⟩ := Option.isSome_iff_exists.mp
    (Option.isSome_iff_ne_none.mpr (mt List.min?_eq_none_iff.mp hmap))
  obtain ⟨hmem, hall⟩ := List.min?_eq_some_iff.mp hleast
  obtain ⟨smallest, hsmallest, rfl⟩ := List.mem_map.mp hmem
  refine ⟨smallest, hsmallest, fun r hr => hall _ (List.mem_map.mpr ⟨r, hr, rfl⟩), ?_⟩
  simp only [positiveTtl, hleast, Option.getD_some]
  omega

lemma cacheable_permitted_iff
    (h : (DnsCache.new config refreshClaimLease shardIndex).cacheable response =
      some (answer, ttl)) :
    Permitted config response ttl ↔ (NegativeReply response → SoaOutlasts config response) := by
  unfold DnsCache.cacheable at h
  split at h
  · cases h
  next hwhole =>
    split at h
    next hanswers =>
      split at h
      · cases h
      obtain ⟨-, rfl⟩ := h
      constructor
      · exact fun _ hneg => absurd hneg.2.1 hanswers
      · refine fun _ => ⟨fun _ => ?_, fun hnone => absurd hnone hanswers⟩
        exact positiveTtl_permitted response.answers hanswers config.minTtlSeconds
          (max config.maxTtlSeconds config.minTtlSeconds) (Nat.le_max_right _ _)
    next hanswers =>
      split at h
      next hcode =>
        obtain ⟨-, rfl⟩ := h
        rw [not_not] at hanswers
        have hneg : NegativeReply response := ⟨by simpa using hwhole, hanswers, hcode⟩
        constructor
        · intro hpermitted _ soa minimum hsoa
          have hle := ((hpermitted.negative hanswers).2 soa minimum hsoa).2
          rw [negativeTtl_le response _ hsoa] at hle
          exact hle
        · refine fun hoh => ⟨fun hsome => absurd hanswers hsome, fun _ => ⟨?_, ?_⟩⟩
          · exact Nat.min_le_right _ _
          · intro soa minimum hsoa
            rw [negativeTtl_le response _ hsoa]
            exact ⟨Nat.min_le_left _ _, hoh hneg soa minimum hsoa⟩
      · cases h

lemma NegativeReply.cacheable (h : NegativeReply response)
    (cache : DnsCache) : ∃ answer ttl, cache.cacheable response = some (answer, ttl) := by
  simp [DnsCache.cacheable, h.1, h.2.1, h.2.2]

/-- Every lookup after a history reports an answer that a step stored, fresh
only within the lifetime it was stored under, with no more than what is left of
it, and stale only when that is on and within the window; the lifetimes are
permitted; what is no answer is never stored. -/
structure LifetimesKept (layout : Layout) (history : List (Nat × CacheOp)) : Prop where
  fresh : ∀ key now answer remaining, (∀ op ∈ history, op.1 ≤ now) →
    ((DnsCache.new config refreshClaimLease shardIndex).run layout history).lookup key now =
      .fresh answer remaining →
    ∃ stored response ttl, (stored, .store key response) ∈ history ∧
      (DnsCache.new config refreshClaimLease shardIndex).cacheable response =
        some (answer, ttl) ∧
      now - stored < seconds ttl ∧ seconds remaining.toNat + (now - stored) ≤ seconds ttl
  stale : ∀ key now answer claimed, (∀ op ∈ history, op.1 ≤ now) →
    ((DnsCache.new config refreshClaimLease shardIndex).run layout history).lookup key now =
      .stale answer claimed →
    config.serveStale = true ∧ ∃ stored response ttl, (stored, .store key response) ∈ history ∧
      (DnsCache.new config refreshClaimLease shardIndex).cacheable response =
        some (answer, ttl) ∧
      seconds ttl ≤ now - stored ∧ now - stored < seconds ttl + maxStale
  permitted : ∀ stored key response answer ttl, (stored, .store key response) ∈ history →
    (DnsCache.new config refreshClaimLease shardIndex).cacheable response = some (answer, ttl) →
    Permitted config response ttl
  refused : ∀ stored key response, (stored, .store key response) ∈ history →
    response.metadata.truncation = true ∨ response.metadata.responseCode = .servFail ∨
      response.metadata.responseCode = .refused →
    ∀ before, ((DnsCache.new config refreshClaimLease shardIndex).run layout before).store layout
      key response stored =
        (false, (DnsCache.new config refreshClaimLease shardIndex).run layout before)

lemma cacheable_eq_none (cache : DnsCache)
    (h : response.metadata.truncation = true ∨ response.metadata.responseCode = .servFail ∨
      response.metadata.responseCode = .refused) : cache.cacheable response = none := by
  unfold DnsCache.cacheable
  rcases h with h | h | h <;> simp [h]

/-- Lifetimes are kept by a history exactly when the SOA record of every
negative reply it stores outlasts the smaller of its MINIMUM field and the
cap. -/
theorem lifetimes_kept_iff (layout : Layout) (history : List (Nat × CacheOp)) :
    LifetimesKept config refreshClaimLease shardIndex layout history ↔
      ∀ stored key response, (stored, .store key response) ∈ history →
        NegativeReply response → SoaOutlasts config response := by
  constructor
  · intro h stored key response hmem hneg
    obtain ⟨answer, ttl, hstored⟩ :=
      hneg.cacheable (DnsCache.new config refreshClaimLease shardIndex)
    have hpermitted := h.permitted stored key response answer ttl hmem hstored
    exact (cacheable_permitted_iff config refreshClaimLease shardIndex hstored).mp hpermitted hneg
  · intro h
    refine ⟨?_, ?_, ?_, ?_⟩
    · intro key now answer remaining hnow hlookup
      obtain ⟨entry, hentry, rfl, hlt, hle⟩ := lookup_fresh hlookup
      obtain ⟨response, ttl, hmem, hstored, httl⟩ :=
        stored_in_run layout config refreshClaimLease shardIndex history _ hentry
      have hpast := hnow _ hmem
      simp only [Entry.expiresAt] at hlt hle
      exact ⟨entry.insertedAt, response, ttl, hmem, hstored, by omega, by omega⟩
    · intro key now answer claimed hnow hlookup
      obtain ⟨hserve, entry, hentry, rfl, hge, hlt⟩ := lookup_stale hlookup
      obtain ⟨response, ttl, hmem, hstored, httl⟩ :=
        stored_in_run layout config refreshClaimLease shardIndex history _ hentry
      obtain ⟨shards, hshards⟩ :=
        DnsCache.run_settings layout (DnsCache.new config refreshClaimLease shardIndex) history
      rw [hshards] at hserve
      simp only [Entry.staleDeadline, Entry.expiresAt] at hge hlt
      exact ⟨hserve, entry.insertedAt, response, ttl, hmem, hstored, by omega, by omega⟩
    · intro stored key response answer ttl hmem hstored
      exact (cacheable_permitted_iff config refreshClaimLease shardIndex hstored).mpr
        (h stored key response hmem)
    · intro stored key response _ hno before
      rw [DnsCache.store, cacheable_eq_none _ hno]

/-- A name that does not exist, with an SOA record of one minute whose MINIMUM
field says an hour. -/
def shortSoaReply : Message :=
  let reply := Message.response 7 .query
  { reply with
    metadata := { reply.metadata with responseCode := .nxDomain }
    authorities := [⟨.root, 60,
      .other 6 [0, 0, 0, 0, 0, 1, 0, 0, 14, 16, 0, 0, 14, 16, 0, 0, 14, 16, 0, 0, 14, 16]⟩] }

/-- Such a reply is still fresh half an hour after its SOA record ran out. -/
theorem negative_outlives_soa :
    let config : DnsCacheConfig := ⟨10000, 16777216, 0, 86400, 3600, true⟩
    let key : CacheKey := ⟨lit "gone.example.", 1, 1⟩
    let cache := (DnsCache.new config (seconds 5) fun _ => ⟨0, by decide⟩).run ⟨8, 56, 64⟩
      [(0, .store key shortSoaReply)]
    cache.lookup key (seconds 1860) =
        .fresh ⟨[], shortSoaReply.authorities, .nxDomain⟩ 1740 ∧
      (firstSoa shortSoaReply).map (fun soa => (soa.1.ttl.toNat, soa.2)) = some (60, 3600) := by
  decide +kernel

end Lifetimes

end FastAdHunter.Dns
