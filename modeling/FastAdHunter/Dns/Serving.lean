import FastAdHunter.Dns.Lifetimes
import FastAdHunter.Lib.Interference

/-!
# Queries and refresh workers side by side

The resolve path, the refresh pool and the scheduled clean as programs over the
shared cache and the refresh queue. An access is one critical section of the
cache, one operation on the queue, or a forward, whose reply the environment
chooses; before each access any amount of time may pass.
-/

namespace FastAdHunter.Dns

open Lib List

section Machine

/-- The atomic accesses of the tasks. -/
inductive DnsAccess : Type → Type where
  | lookup (key : CacheKey) (claimRefresh : Bool) : DnsAccess Lookup
  | store (key : CacheKey) (response : Message) : DnsAccess Bool
  | suppressRefresh (key : CacheKey) : DnsAccess Unit
  | releaseRefreshClaim (key : CacheKey) : DnsAccess Unit
  | trySend (key : CacheKey) : DnsAccess Bool
  | recv : DnsAccess (Option CacheKey)
  | forward (request : Message) : DnsAccess (Option ForwardOutcome)
  | cleanShard (i : Fin shardCount) (purgeStale : Bool) : DnsAccess Unit

/-- The cache, the refresh queue with its depth, and the clock. -/
structure Serving where
  cache : DnsCache
  pending : List CacheKey
  depth : Nat
  now : Nat

/-- What the environment chooses: how long until the access, what the upstreams
reply, and whether the other end of the queue is gone. -/
structure Chance where
  elapsed : Nat
  reply : Option ForwardOutcome
  closed : Bool

variable (layout : Layout)

/-- What an access does. Receiving from an empty queue waits. -/
def serve {β : Type} (access : DnsAccess β) (x : Chance) (s : Serving) : Option (β × Serving) :=
  let now := s.now + x.elapsed
  match access with
  | .lookup key claimRefresh =>
    let (found, cache) := s.cache.lookupInner key claimRefresh now
    some (found, { s with cache := cache, now := now })
  | .store key response =>
    let (stored, cache) := s.cache.store layout key response now
    some (stored, { s with cache := cache, now := now })
  | .suppressRefresh key =>
    some ((), { s with
      cache := s.cache.suppressRefresh key refreshFailureCooldown now, now := now })
  | .releaseRefreshClaim key =>
    some ((), { s with cache := s.cache.releaseRefreshClaim key, now := now })
  | .trySend key =>
    if x.closed || s.depth ≤ s.pending.length then some (false, { s with now := now })
    else some (true, { s with pending := s.pending ++ [key], now := now })
  | .recv =>
    match s.pending with
    | key :: rest => some (some key, { s with pending := rest, now := now })
    | [] => if x.closed then some (none, { s with now := now }) else none
  | .forward _ => some (x.reply, { s with now := now })
  | .cleanShard i purgeStale =>
    some ((), { s with cache := s.cache.cleanShard layout i purgeStale now, now := now })

def machine : Machine DnsAccess Serving Chance where
  run access _ x s := serve layout access x s

end Machine

/-- Hand a claimed refresh to the pool, or the claim back. -/
def offer (key : CacheKey) : Prog DnsAccess Unit := do
  let sent ← DnsAccess.trySend key
  if sent then pure () else DnsAccess.releaseRefreshClaim key

/-- Keep an upstream's reply and pass it on. -/
def relayReply (request : Message) (key : CacheKey) (forwarded : ForwardOutcome) :
    Prog DnsAccess Resolved := do
  let _ ← DnsAccess.store key forwarded.message
  let response := forwarded.message
  pure (.forwarded
    { response with metadata := { response.metadata with id := request.metadata.id } }
    (outcomeOf response.metadata.responseCode) forwarded.endpoint)

/-- A stale answer after a failed forward. -/
def staleFallback (request : Message) (query : WireQuery) (key : CacheKey)
    (otherwise : Prog DnsAccess Resolved) : Prog DnsAccess Resolved := do
  match ← DnsAccess.lookup key false with
  | .stale answer _ =>
    pure (.fromCache (fromCache request query answer staleServeTtl) (some .afterForwardFailure))
  | _ => otherwise

/-- Ask the upstreams. -/
def forwardFirst (request : Message) (query : WireQuery) (key : CacheKey) :
    Prog DnsAccess Resolved := do
  match ← DnsAccess.forward request with
  | some forwarded =>
    if forwarded.message.metadata.responseCode = .servFail then
      staleFallback request query key (relayReply request key forwarded)
    else relayReply request key forwarded
  | none =>
    staleFallback request query key (pure (.synthesizedServfail (error request .servFail)))

/-- The cache first, then the upstreams; with a refresh pool a stale hit is
answered at once. -/
def resolve (swr : Bool) (request : Message) (query : WireQuery) (domain : Bytes) :
    Prog DnsAccess Resolved := do
  let key : CacheKey := ⟨domain, query.queryType, query.queryClass⟩
  match ← DnsAccess.lookup key swr with
  | .fresh answer remaining =>
    pure (.fromCache (fromCache request query answer remaining) none)
  | .stale answer claimedRefresh =>
    if swr then do
      if claimedRefresh then offer key else pure ()
      pure (.fromCache (fromCache request query answer staleServeTtl) (some .fromSwr))
    else forwardFirst request query key
  | .miss => forwardFirst request query key

def refresh (lib : WireLibrary) (id : UInt16) (key : CacheKey) : Prog DnsAccess Unit := do
  let stored ← match ← DnsAccess.forward (refreshQuery lib id key) with
    | some outcome => liftM (DnsAccess.store key outcome.message)
    | none => pure false
  if stored then pure () else DnsAccess.suppressRefresh key

/-- A worker of the pool, up to some number of jobs. -/
def worker (lib : WireLibrary) (id : UInt16) : Nat → Prog DnsAccess Unit
  | 0 => pure ()
  | rounds + 1 => do
    match ← DnsAccess.recv with
    | some key => do
      refresh lib id key
      worker lib id rounds
    | none => pure ()

/-- A clean, shard by shard. -/
def clean (purgeStale : Bool) : List (Fin shardCount) → Prog DnsAccess Unit
  | [] => pure ()
  | i :: rest => do
    DnsAccess.cleanShard i purgeStale
    clean purgeStale rest

/-- What runs beside each other. -/
inductive Task where
  | query (swr : Bool) (request : Message) (question : WireQuery) (domain : Bytes)
  | worker (lib : WireLibrary) (id : UInt16) (rounds : Nat)
  | clean (purgeStale : Bool)

def Task.prog : Task → Prog DnsAccess (Option Resolved)
  | .query swr request question domain => do
    let resolved ← resolve swr request question domain
    pure (some resolved)
  | .worker lib id rounds => do
    Dns.worker lib id rounds
    pure none
  | .clean purgeStale => do
    Dns.clean purgeStale (List.finRange shardCount)
    pure none

section Pipelined

variable {layout : Layout} {i : Nat}

/-- A forward that brought no answer. -/
def Label.failedForward : Label DnsAccess Serving → Prop
  | ⟨_, ⟨_, .forward _⟩, reply, _, _⟩ =>
    match reply with
    | none => True
    | some forwarded => forwarded.message.metadata.responseCode = .servFail
  | _ => False

def Label.readsAgain (key : CacheKey) : Label DnsAccess Serving → Prop
  | ⟨_, ⟨_, .lookup key' claimRefresh⟩, _, _, _⟩ => key' = key ∧ claimRefresh = false
  | _ => False

def AnsweredFrom (request : Message) (query : WireQuery) (entry : Entry) (resolved : Resolved) :
    Prop :=
  ∃ ttl stale, resolved = .fromCache (fromCache request query entry.answer ttl) stale

/-- What a failed forward is followed by: a second look at the cache, and an
answer from the entry it finds exactly when that one is stale. -/
def OutageHandled (request : Message) (query : WireQuery) (key : CacheKey)
    (labels : List (Label DnsAccess Serving)) (resolved : Resolved) : Prop :=
  ∀ first failed rest, labels = first ++ failed :: rest → Label.failedForward failed →
    ∃ again more, rest = again :: more ∧ Label.readsAgain key again ∧
      ∀ entry, again.before.cache.entryOf key = some entry →
        entry.state again.after.now again.before.cache.serveStale ≠ .expired →
        (AnsweredFrom request query entry resolved ↔
          entry.state again.after.now again.before.cache.serveStale = .stale)

variable {request : Message} {query : WireQuery} {key : CacheKey} {resolved : Resolved}

lemma OutageHandled.of_none (h : ∀ l ∈ labels, ¬ Label.failedForward l) :
    OutageHandled request query key labels resolved := by
  intro first failed rest heq hfailed
  exact absurd hfailed (h failed (by simp [heq]))

lemma OutageHandled.cons
    (hl : ¬ Label.failedForward l) (h : OutageHandled request query key labels resolved) :
    OutageHandled request query key (l :: labels) resolved := by
  intro first failed rest heq hfailed
  cases first with
  | nil =>
    obtain ⟨rfl, -⟩ := List.cons.inj heq
    exact absurd hfailed hl
  | cons m first =>
    obtain ⟨-, hrest⟩ := List.cons.inj heq
    exact h first failed rest hrest hfailed

lemma lookupInner_of_entry {cache : DnsCache} (h : cache.entryOf key = some entry) :
    (cache.lookupInner key false now).1 =
      match entry.state now cache.serveStale with
      | .fresh => .fresh entry.answer (UInt32.ofNat (asSecs (entry.expiresAt - now)))
      | .stale => .stale entry.answer false
      | .expired => .miss := by
  simp only [DnsCache.lookupInner, h, Entry.state]
  split
  · rfl
  · split
    · rfl
    · rfl

lemma OutageHandled.failed (hrun : (machine layout).run (.lookup key false) i x s = some (found, t))
    (hmore : ∀ l ∈ more, ¬ Label.failedForward l)
    (hanswer : (∀ answer claimed, found = .stale answer claimed → ∃ ttl stale,
        resolved = .fromCache (fromCache request query answer ttl) stale) ∧
      ((∀ answer claimed, found ≠ .stale answer claimed) → resolved.cacheHit = false)) :
    OutageHandled request query key
      (f :: ⟨i, ⟨Lookup, .lookup key false⟩, found, s, t⟩ :: more) resolved := by
  intro first failed rest heq hfailed
  cases first with
  | cons m first =>
    -- no step after the failed forward is one
    obtain ⟨-, hrest⟩ := List.cons.inj heq
    have hmem : failed ∈ ⟨i, ⟨Lookup, .lookup key false⟩, found, s, t⟩ :: more := by
      simp [hrest]
    rcases mem_cons.mp hmem with rfl | hmem
    · exact absurd hfailed id
    · exact absurd hfailed (hmore failed hmem)
  | nil =>
    obtain ⟨-, rfl⟩ := List.cons.inj heq
    refine ⟨_, more, rfl, ⟨rfl, rfl⟩, fun entry hentry hserved => ?_⟩
    simp only [machine, serve, Option.some.injEq, Prod.mk.injEq] at hrun
    obtain ⟨hfound, rfl⟩ := hrun
    rw [lookupInner_of_entry hentry] at hfound
    cases hstate : entry.state (s.now + x.elapsed) s.cache.serveStale with
    | expired => exact absurd hstate hserved
    | fresh =>
      simp only [hstate] at hfound
      have hmiss := hanswer.2 fun answer claimed hstale => by rw [← hfound] at hstale; cases hstale
      constructor
      · rintro ⟨ttl, stale, rfl⟩
        cases hmiss
      · exact fun h => EntryState.noConfusion h
    | stale =>
      simp only [hstate] at hfound
      exact ⟨fun _ => rfl, fun _ => hanswer.1 entry.answer false hfound.symm⟩

lemma relayReply_does (forwarded : ForwardOutcome) :
    Does (machine layout) i
      (fun labels resolved => (∀ l ∈ labels, ¬ Label.failedForward l) ∧ resolved.cacheHit = false)
      (relayReply request key forwarded) := by
  refine Does.act fun x s b t _ => Does.ret ⟨?_, rfl⟩
  intro l hl
  rw [mem_singleton.mp hl]
  exact id

lemma staleFallback_does (h : Does (machine layout) i (fun labels resolved =>
      (∀ l ∈ labels, ¬ Label.failedForward l) ∧ resolved.cacheHit = false) otherwise) :
    Does (machine layout) i
      (fun labels resolved => OutageHandled request query key (f :: labels) resolved)
      (staleFallback request query key otherwise) := by
  refine Does.act fun x s found t hrun => ?_
  cases found with
  | stale answer claimed =>
    refine Does.ret (OutageHandled.failed hrun (by simp) ⟨?_, ?_⟩)
    · rintro answer' claimed' ⟨⟩
      exact ⟨_, _, rfl⟩
    · exact fun hno => absurd rfl (hno answer claimed)
  | fresh | miss =>
    refine h.mono fun labels resolved hres => OutageHandled.failed hrun hres.1 ⟨?_, ?_⟩
    · rintro answer' claimed' ⟨⟩
    · exact fun _ => hres.2

lemma forwardFirst_does :
    Does (machine layout) i (OutageHandled request query key) (forwardFirst request query key) := by
  simp only [forwardFirst, Prog.lift_bind]
  refine Does.act fun x s reply t _ => ?_
  cases reply with
  | none => exact staleFallback_does (Does.ret ⟨by simp, rfl⟩)
  | some forwarded =>
    dsimp only
    split
    · exact staleFallback_does (relayReply_does forwarded)
    next hcode =>
      refine (relayReply_does forwarded).mono fun labels resolved hres => ?_
      exact OutageHandled.cons hcode (OutageHandled.of_none hres.1)

lemma offer_does :
    Does (machine layout) i (fun labels _ => ∀ l ∈ labels, ¬ Label.failedForward l)
      (offer key) := by
  simp only [offer, Prog.lift_bind]
  refine Does.act fun x s sent t _ => ?_
  split
  · refine Does.ret fun l hl => ?_
    rw [mem_singleton.mp hl]
    exact id
  · refine Does.act fun x s b t _ => Does.ret fun l hl => ?_
    simp only [mem_cons, not_mem_nil, or_false] at hl
    rcases hl with rfl | rfl
    · exact id
    · exact id

lemma resolve_does (swr : Bool) (domain : Bytes) :
    Does (machine layout) i
      (OutageHandled request query ⟨domain, query.queryType, query.queryClass⟩)
      (resolve swr request query domain) := by
  simp only [resolve, Prog.lift_bind]
  refine Does.act fun x s found t _ => ?_
  have hforward := (@forwardFirst_does layout i request query
    ⟨domain, query.queryType, query.queryClass⟩).mono fun labels resolved h =>
      OutageHandled.cons
        (l := ⟨i, ⟨Lookup, .lookup ⟨domain, query.queryType, query.queryClass⟩ swr⟩, found, s, t⟩)
        id h
  cases found with
  | miss => exact hforward
  | fresh answer remaining =>
    exact Does.ret (OutageHandled.cons id (OutageHandled.of_none (by simp)))
  | stale answer claimed =>
    dsimp only
    split
    · cases claimed with
      | true =>
        refine Does.bind (offer_does.mono fun labels _ h => Does.ret ?_)
        rw [append_nil]
        exact OutageHandled.cons id (OutageHandled.of_none h)
      | false => exact Does.ret (OutageHandled.cons id (OutageHandled.of_none (by simp)))
    · exact hforward

/-- **An outage and the answer in hand.** In every run, a query whose forward
failed looks at the cache again at once, and is answered from a servable entry it
finds exactly when that entry is stale: a fresh one, stored meanwhile by another
query, is passed over. -/
theorem outage_answered_iff {c c' : Pool DnsAccess Serving (Option Resolved)}
    {labels : List (Label DnsAccess Serving)} (hrun : Pool.Run (machine layout) c labels c')
    {swr : Bool} {domain : Bytes}
    (hstart : c.threads[i]? = some (Task.query swr request query domain).prog)
    (hend : c'.threads[i]? = some (.ret (some resolved))) :
    OutageHandled request query ⟨domain, query.queryType, query.queryClass⟩
      (labels.filter fun l => l.thread == i) resolved := by
  obtain ⟨p, hp, hsteps⟩ := hrun.steps hstart
  rw [hend, Option.some.injEq] at hp
  subst hp
  have hdoes : Does (machine layout) i (fun labels answer => ∀ resolved, answer = some resolved →
      OutageHandled request query ⟨domain, query.queryType, query.queryClass⟩ labels resolved)
      (Task.query swr request query domain).prog := by
    refine Does.bind ((resolve_does swr domain).mono fun labels resolved h => Does.ret ?_)
    rintro resolved' ⟨⟩
    rw [append_nil]
    exact h
  exact hdoes _ _ hsteps resolved rfl

end Pipelined

section Refinement

def Label.found : Label DnsAccess Serving → Option Lookup
  | ⟨_, ⟨_, .lookup _ _⟩, found, _, _⟩ => some found
  | _ => none

def Label.replied : Label DnsAccess Serving → Option (Option ForwardOutcome)
  | ⟨_, ⟨_, .forward _⟩, reply, _, _⟩ => some reply
  | _ => none

def Label.sent : Label DnsAccess Serving → Option Bool
  | ⟨_, ⟨_, .trySend _⟩, sent, _, _⟩ => some sent
  | _ => none

/-- The surroundings a query met, read off its steps. -/
def met (labels : List (Label DnsAccess Serving)) : Surroundings where
  cached := fun _ => ((labels.filterMap Label.found)[0]?).getD .miss
  cachedAgain := fun _ => ((labels.filterMap Label.found)[1]?).getD .miss
  forward := fun _ => ((labels.filterMap Label.replied)[0]?).getD none
  queueRoom := ((labels.filterMap Label.sent)[0]?).getD false

variable {layout : Layout} {i : Nat} {request : Message} {query : WireQuery}

lemma forwardFirst_by_pipeline (key : CacheKey) (claimed : Bool) (found : Lookup) (s t : Serving) :
    Does (machine layout) i (fun labels resolved => (forwardRequest
        (met (⟨i, ⟨Lookup, .lookup key claimed⟩, found, s, t⟩ :: labels)) request query key).1 =
          resolved) (forwardFirst request query key) := by
  simp only [forwardFirst, Prog.lift_bind]
  refine Does.act fun x s reply t _ => ?_
  cases reply with
  | none =>
    refine Does.act fun x s again t _ => ?_
    cases again with
    | stale | fresh | miss => exact Does.ret rfl
  | some forwarded =>
    dsimp only
    split
    next hcode =>
      refine Does.act fun x s again t _ => ?_
      cases again with
      | stale answer claimed => exact Does.ret (congrArg Prod.fst (if_pos hcode))
      | fresh answer remaining =>
        exact Does.act fun x s b t _ => Does.ret (congrArg Prod.fst (if_pos hcode))
      | miss => exact Does.act fun x s b t _ => Does.ret (congrArg Prod.fst (if_pos hcode))
    next hcode =>
      exact Does.act fun x s b t _ => Does.ret (congrArg Prod.fst (if_neg hcode))

lemma resolve_by_pipeline (p : Pipeline) (domain : Bytes) :
    Does (machine layout) i
      (fun labels resolved => (p.resolve (met labels) request query domain).1 = resolved)
      (resolve p.swr request query domain) := by
  refine Does.act fun x s found t _ => ?_
  cases found with
  | miss => exact forwardFirst_by_pipeline _ _ _ _ _
  | fresh answer remaining => exact Does.ret rfl
  | stale answer claimed =>
    dsimp only
    split
    next hswr =>
      -- whatever becomes of the refresh, the client has its answer
      have hanswer : ∀ labels, ((p.resolve (met (⟨i, ⟨Lookup, .lookup ⟨domain, query.queryType,
          query.queryClass⟩ p.swr⟩, .stale answer claimed, s, t⟩ :: labels)) request query
            domain).1 =
          Resolved.fromCache (fromCache request query answer staleServeTtl) (some .fromSwr)) :=
        fun labels => congrArg Prod.fst (if_pos hswr)
      cases claimed with
      | true =>
        refine Does.act fun x s sent t _ => ?_
        cases sent with
        | true => exact Does.ret (hanswer _)
        | false => exact Does.act fun x s b t _ => Does.ret (hanswer _)
      | false => exact Does.ret (hanswer _)
    next hswr =>
      refine (forwardFirst_by_pipeline _ p.swr (.stale answer claimed) s t).mono
        fun labels resolved h => ?_
      exact (congrArg Prod.fst (if_neg hswr)).trans h

/-- **The interleaved pipeline is the pipeline.** In every run of queries, workers and
cleans, a query that ends is answered as the pipeline answers it in the surroundings it
met: the two looks at the cache, the reply and the room in the queue that its own steps
found. -/
theorem answered_as_pipeline {c c' : Pool DnsAccess Serving (Option Resolved)}
    {labels : List (Label DnsAccess Serving)} (hrun : Pool.Run (machine layout) c labels c')
    (p : Pipeline) {domain : Bytes}
    (hstart : c.threads[i]? = some (Task.query p.swr request query domain).prog)
    (hend : c'.threads[i]? = some (.ret (some resolved))) :
    (p.resolve (met (labels.filter fun l => l.thread == i)) request query domain).1 =
      resolved := by
  obtain ⟨q, hq, hsteps⟩ := hrun.steps hstart
  rw [hend, Option.some.injEq] at hq
  subst hq
  have hdoes : Does (machine layout) i (fun labels answer => ∀ resolved, answer = some resolved →
      (p.resolve (met labels) request query domain).1 = resolved)
      (Task.query p.swr request query domain).prog := by
    refine Does.bind ((resolve_by_pipeline p domain).mono fun labels resolved h => Does.ret ?_)
    rintro resolved' ⟨⟩
    rwa [append_nil]
  exact hdoes _ _ hsteps resolved rfl

end Refinement

/-- An empty cache and an empty queue. -/
def idleServing (maxEntries : Nat) : Serving where
  cache := DnsCache.new ⟨maxEntries, 16777216, 0, 86400, 3600, true⟩ (seconds 5)
    fun _ => ⟨0, by decide⟩
  pending := []
  depth := 1
  now := 0

def addressQuery : WireQuery :=
  ⟨⟨[lit "www", lit "example"], by decide⟩, 1, 1⟩

def addressKey : CacheKey := ⟨lit "www.example.", 1, 1⟩

/-- A client asks for an address. -/
def addressTask (swr : Bool) : Task :=
  .query swr ((Message.query 7).addQuery addressQuery) addressQuery addressKey.domain

def addressReply (ttl : UInt32) : ForwardOutcome :=
  let reply := (Message.response 7 .query).addQuery addressQuery
  ⟨{ reply with answers := [⟨addressQuery.name, ttl, .other 1 [192, 0, 2, 1]⟩] }, 0⟩

/-- Nothing in particular. -/
def Chance.plain : Chance := ⟨0, none, false⟩

/-- Two queries miss; the forward of the second brings an answer, which is
stored, and then the forward of the first fails. -/
def missedTwice : List (Nat × Chance) :=
  [(0, .plain), (1, .plain), (1, ⟨0, some (addressReply 300), false⟩), (1, .plain), (0, .plain),
    (0, .plain)]

lemma missedTwice_run :
    ∃ labels c resolved, Pool.Run (machine ⟨8, 56, 64⟩)
        ⟨idleServing 1000, [(addressTask true).prog, (addressTask true).prog]⟩ labels c ∧
      c.threads[0]? = some (.ret (some resolved)) ∧ resolved = .synthesizedServfail
        (error ((Message.query 7).addQuery addressQuery) .servFail) ∧
      c.state.cache.lookup addressKey c.state.now =
        .fresh ⟨(addressReply 300).message.answers, [], .noError⟩ 300 := by
  obtain ⟨r, hexec, hr⟩ := (Option.any_eq_true _ _).mp
    (show (Pool.exec (machine ⟨8, 56, 64⟩)
        (⟨idleServing 1000, [(addressTask true).prog, (addressTask true).prog]⟩ :
          Pool DnsAccess Serving (Option Resolved)) missedTwice).any (fun r =>
        (r.2.threads[0]?.bind Prog.result?).join == some (.synthesizedServfail
          (error ((Message.query 7).addQuery addressQuery) .servFail)) &&
        r.2.state.cache.lookup addressKey r.2.state.now ==
          .fresh ⟨(addressReply 300).message.answers, [], .noError⟩ 300) = true by decide +kernel)
  simp only [Bool.and_eq_true, beq_iff_eq] at hr
  obtain ⟨p, hp, hresult⟩ := Option.bind_eq_some_iff.mp (Option.join_eq_some_iff.mp hr.1)
  refine ⟨r.1, r.2, _, Pool.run_of_exec hexec, ?_, rfl, hr.2⟩
  rw [hp, Prog.eq_ret_of_result? hresult]

/-- **An answer in hand is passed over**: a query gets a failure while the cache
holds a fresh answer to its question. -/
theorem fresh_answer_passed_over :
    ∃ labels c resolved, Pool.Run (machine ⟨8, 56, 64⟩)
        ⟨idleServing 1000, [(addressTask true).prog, (addressTask true).prog]⟩ labels c ∧
      c.threads[0]? = some (.ret (some resolved)) ∧
      resolved.response.metadata.responseCode = .servFail ∧ ∃ answer remaining,
        c.state.cache.lookup addressKey c.state.now = .fresh answer remaining := by
  obtain ⟨labels, c, resolved, hrun, hend, rfl, hfresh⟩ := missedTwice_run
  exact ⟨labels, c, _, hrun, hend, rfl, _, _, hfresh⟩

theorem outage_answered_iff_missed :
    ∃ labels c resolved, Pool.Run (machine ⟨8, 56, 64⟩)
        ⟨idleServing 1000, [(addressTask true).prog, (addressTask true).prog]⟩ labels c ∧
      c.threads[0]? = some (.ret (some resolved)) ∧
      OutageHandled ((Message.query 7).addQuery addressQuery) addressQuery addressKey
        (labels.filter fun l => l.thread == 0) resolved := by
  obtain ⟨labels, c, resolved, hrun, hend, -, -⟩ := missedTwice_run
  exact ⟨labels, c, resolved, hrun, hend, outage_answered_iff hrun rfl hend⟩

/-- A pipeline without rules that serves stale answers. -/
def stalePipeline : Pipeline :=
  { samplePipeline [] ((Rules.compile 0 3 []).get (by decide +kernel)) with swr := true }

theorem answered_as_pipeline_missed :
    ∃ labels c resolved, Pool.Run (machine ⟨8, 56, 64⟩)
        ⟨idleServing 1000, [(addressTask true).prog, (addressTask true).prog]⟩ labels c ∧
      c.threads[0]? = some (.ret (some resolved)) ∧
      (stalePipeline.resolve (met (labels.filter fun l => l.thread == 0))
        ((Message.query 7).addQuery addressQuery) addressQuery addressKey.domain).1 = resolved := by
  obtain ⟨labels, c, resolved, hrun, hend, -, -⟩ := missedTwice_run
  exact ⟨labels, c, resolved, hrun, hend, answered_as_pipeline hrun stalePipeline rfl hend⟩

end FastAdHunter.Dns
