import FastAdHunter.Dns.Claims

/-!
# Signatures through the cache

A request goes to the upstreams as the client sent it, its DO bit included, and
what comes back is stored under the name, the type and the class alone. A later
query is answered with the records of whichever exchange filled the entry: a
query without the DO bit, or a refresh, which has no EDNS at all, leaves an entry
without signatures for the clients that ask for them.
-/

namespace FastAdHunter.Dns

open Lib List

/-- The DO bit of a request. -/
def Message.dnssecOk (message : Message) : Bool :=
  message.edns.any (·.dnssecOk)

/-- A record without its lifetime. -/
def Record.bare (record : Record) : Name × RData :=
  (record.name, record.data)

def Label.Brings (request : Message) (forwarded : ForwardOutcome) :
    Label DnsAccess Serving → Prop
  | ⟨_, ⟨_, .forward request'⟩, reply, _, _⟩ => request' = request ∧ reply = some forwarded
  | _ => False

def Label.Stores (key : CacheKey) (response : Message) : Label DnsAccess Serving → Prop
  | ⟨_, ⟨_, .store key' response'⟩, _, _, _⟩ => key' = key ∧ response' = response
  | _ => False

def Label.Takes (key : CacheKey) : Label DnsAccess Serving → Prop
  | ⟨_, ⟨_, .recv⟩, received, _, _⟩ => received = some key
  | _ => False

instance (key : CacheKey) (l : Label DnsAccess Serving) : Decidable (Label.Takes key l) := by
  unfold Label.Takes
  split <;> infer_instance

def Lookup.answer? : Lookup → Option CachedAnswer
  | .fresh answer _ => some answer
  | .stale answer _ => some answer
  | .miss => none

def Label.Finds (key : CacheKey) (answer : CachedAnswer) : Label DnsAccess Serving → Prop
  | ⟨_, ⟨_, .lookup key' _⟩, found, _, _⟩ => key' = key ∧ found.answer? = some answer
  | _ => False

/-- The task is a query for this key and forwards this request. -/
def Task.Forwards : Task → CacheKey → Message → Prop
  | .query _ request question domain, key, request' =>
    key = ⟨domain, question.queryType, question.queryClass⟩ ∧ request' = request
  | _, _, _ => False

/-- The records the upstreams gave to a query for this key with the DO bit. -/
def PassedThrough (tasks : List Task) (labels : List (Label DnsAccess Serving)) (key : CacheKey)
    (records : List Record) : Prop :=
  ∃ l ∈ labels, ∃ task request forwarded, tasks[l.thread]? = some task ∧
    task.Forwards key request ∧ request.dnssecOk = true ∧ Label.Brings request forwarded l ∧
    forwarded.message.answers.map Record.bare = records.map Record.bare

section Origins

variable {layout : Layout} {i : Nat} {key : CacheKey} {request : Message} {query : WireQuery}
variable {past : List (Label DnsAccess Serving)} {own : CacheKey → Message → Prop}

/-- Where a thread has what it stores from: its own forward, or a job it took
up. -/
def StoresOwn (own : CacheKey → Message → Prop) (past : List (Label DnsAccess Serving))
    (l : Label DnsAccess Serving) : Prop :=
  ∀ key response, Label.Stores key response l →
    (∃ m ∈ past, ∃ request forwarded, own key request ∧ Label.Brings request forwarded m ∧
      forwarded.message = response) ∨
    ∃ m ∈ past, Label.Takes key m

/-- Where a query has its answer from: its forward, or the cache. -/
def AnswersOwn (request : Message) (key : CacheKey) (past : List (Label DnsAccess Serving))
    (resolved : Resolved) : Prop :=
  resolved.outcome = .servfailSynthesized ∨
  (∃ m ∈ past, ∃ forwarded, Label.Brings request forwarded m ∧
    forwarded.message.answers = resolved.response.answers) ∨
  ∃ m ∈ past, ∃ answer, Label.Finds key answer m ∧
    answer.records.map Record.bare = resolved.response.answers.map Record.bare

lemma fromCache_bare (answer : CachedAnswer) (ttl : UInt32) :
    (fromCache request query answer ttl).answers.map Record.bare =
      answer.records.map Record.bare := by
  simp only [fromCache, answered, map_map]
  rfl

lemma AnswersOwn.replayed (hl : l ∈ past) (hfinds : Label.Finds key answer l) :
    AnswersOwn request key past (.fromCache (fromCache request query answer ttl) stale) :=
  .inr (.inr ⟨l, hl, answer, hfinds, (fromCache_bare answer ttl).symm⟩)

lemma relayReply_origin (hown : own key request) (hm : m ∈ past) (hbrings : Label.Brings request forwarded m) :
    Along (machine layout) i (StoresOwn own) (AnswersOwn request key) past
      (relayReply request key forwarded) := by
  intro x s b t _
  refine ⟨?_, .inr (.inl ⟨m, mem_append_left _ hm, forwarded, hbrings, rfl⟩)⟩
  rintro key' response ⟨rfl, rfl⟩
  exact .inl ⟨m, hm, request, forwarded, hown, hbrings, rfl⟩

lemma staleFallback_origin
    (h : ∀ l, Along (machine layout) i (StoresOwn own) (AnswersOwn request key) (past ++ [l])
      otherwise) :
    Along (machine layout) i (StoresOwn own) (AnswersOwn request key) past
      (staleFallback request query key otherwise) := by
  intro x s found t _
  refine ⟨fun _ _ hstores => hstores.elim, ?_⟩
  cases found with
  | stale answer claimed => exact AnswersOwn.replayed (mem_concat_self) ⟨rfl, rfl⟩
  | fresh | miss => exact h _

lemma forwardFirst_origin (hown : own key request) :
    Along (machine layout) i (StoresOwn own) (AnswersOwn request key) past
      (forwardFirst request query key) := by
  simp only [forwardFirst, Prog.lift_bind]
  intro x s reply t _
  refine ⟨fun _ _ hstores => hstores.elim, ?_⟩
  cases reply with
  | none => exact staleFallback_origin fun _ => .inl rfl
  | some forwarded =>
    dsimp only
    split
    · refine staleFallback_origin fun l => ?_
      exact relayReply_origin hown (mem_append_left _ mem_concat_self) ⟨rfl, rfl⟩
    · exact relayReply_origin hown mem_concat_self ⟨rfl, rfl⟩

lemma offer_origin (hQ : ∀ more, Q (past ++ more) ()) :
    Along (machine layout) i (StoresOwn own) Q past (offer key) := by
  intro x s sent t _
  refine ⟨fun _ _ hstores => hstores.elim, ?_⟩
  cases sent with
  | true => exact hQ _
  | false =>
    intro x s b t _
    refine ⟨fun _ _ hstores => hstores.elim, ?_⟩
    rw [append_assoc]
    exact hQ _

lemma resolve_origin (swr : Bool) (domain : Bytes)
    (hown : own ⟨domain, query.queryType, query.queryClass⟩ request) :
    Along (machine layout) i (StoresOwn own)
      (AnswersOwn request ⟨domain, query.queryType, query.queryClass⟩) past
      (resolve swr request query domain) := by
  simp only [resolve, Prog.lift_bind]
  intro x s found t _
  refine ⟨fun _ _ hstores => hstores.elim, ?_⟩
  cases found with
  | miss => exact forwardFirst_origin hown
  | fresh answer remaining => exact AnswersOwn.replayed mem_concat_self ⟨rfl, rfl⟩
  | stale answer claimed =>
    split
    · cases claimed with
      | true =>
        refine Along.bind (offer_origin fun more => ?_)
        exact AnswersOwn.replayed (mem_append_left _ mem_concat_self) ⟨rfl, rfl⟩
      | false => exact AnswersOwn.replayed mem_concat_self ⟨rfl, rfl⟩
    · exact forwardFirst_origin hown

lemma refresh_origin {id : UInt16} (hm : m ∈ past) (htakes : Label.Takes key m) :
    Along (machine layout) i (StoresOwn own) (fun _ _ => True) past (refresh lib id key) := by
  have hrest : ∀ past stored, Along (machine layout) i (StoresOwn own) (fun _ _ => True) past
      (if stored = true then pure () else (DnsAccess.suppressRefresh key : Prog DnsAccess Unit)) := by
    intro past stored
    split
    · trivial
    · intro x s b t _
      exact ⟨fun _ _ hstores => hstores.elim, trivial⟩
  intro x s reply t _
  refine ⟨fun _ _ hstores => hstores.elim, ?_⟩
  cases reply with
  | none => exact hrest _ false
  | some outcome =>
    intro x s stored t _
    refine ⟨?_, hrest _ _⟩
    rintro key' response ⟨rfl, rfl⟩
    exact .inr ⟨m, mem_append_left _ hm, htakes⟩

lemma worker_origin (lib : WireLibrary) (id : UInt16) (rounds : Nat) :
    Along (machine layout) i (StoresOwn own) (fun _ _ => True) past (worker lib id rounds) := by
  induction rounds generalizing past with
  | zero => trivial
  | succ rounds ih =>
    simp only [worker, Prog.lift_bind]
    intro x s received t _
    refine ⟨fun _ _ hstores => hstores.elim, ?_⟩
    cases received with
    | none => trivial
    | some key =>
      have htakes : Label.Takes key ⟨i, ⟨_, .recv⟩, some key, s, t⟩ := rfl
      exact Along.bind ((refresh_origin mem_concat_self htakes).mono fun _ _ _ => ih)

lemma clean_origin (purgeStale : Bool) (shards : List (Fin shardCount)) :
    Along (machine layout) i (StoresOwn own) (fun _ _ => True) past (clean purgeStale shards) := by
  induction shards generalizing past with
  | nil => trivial
  | cons shard shards ih =>
    intro x s b t _
    exact ⟨fun _ _ hstores => hstores.elim, ih⟩

lemma Task.origin (task : Task) :
    Along (machine layout) i (StoresOwn task.Forwards)
      (fun past result => ∀ resolved, result = some resolved → ∃ key request,
        task.Forwards key request ∧ AnswersOwn request key past resolved) past task.prog := by
  cases task with
  | query swr request question domain =>
    have hown : (Task.query swr request question domain).Forwards
        ⟨domain, question.queryType, question.queryClass⟩ request := ⟨rfl, rfl⟩
    refine Along.bind ((resolve_origin swr domain hown).mono fun past resolved h => ?_)
    rintro resolved' ⟨⟩
    exact ⟨_, request, hown, h⟩
  | worker lib id rounds =>
    refine Along.bind ((worker_origin lib id rounds).mono fun past _ _ => ?_)
    rintro resolved ⟨⟩
  | clean purgeStale =>
    refine Along.bind ((clean_origin purgeStale _).mono fun past _ _ => ?_)
    rintro resolved ⟨⟩

end Origins

section Entries

variable {layout : Layout} {s t : Serving}

lemma cacheable_records {cache : DnsCache} (h : cache.cacheable response = some (answer, ttl)) :
    answer.records = response.answers := by
  unfold DnsCache.cacheable at h
  split at h
  · cases h
  · split at h
    · split at h
      · cases h
      · cases h
        rfl
    next hnil =>
      split at h
      · cases h
        exact (not_not.mp hnil).symm
      · cases h

lemma entryOf_answer_of_modify {cache : DnsCache} (hf : ∀ entry, (f entry).answer = entry.answer)
    (h : (cache.onShard (cache.shardIndex key) fun shard =>
      { shard with map := shard.map.modify key f }).entryOf key' = some entry) :
    ∃ entry', cache.entryOf key' = some entry' ∧ entry'.answer = entry.answer := by
  rw [entryOf_modify] at h
  split at h
  next hkey =>
    obtain ⟨entry', hentry', rfl⟩ := Option.map_eq_some_iff.mp h
    exact ⟨entry', hkey ▸ hentry', (hf entry').symm⟩
  next => exact ⟨entry, h, rfl⟩

lemma entryOf_store_self {cache : DnsCache}
    (h : (cache.store layout key response now).2.entryOf key = some entry) :
    cache.entryOf key = some entry ∨
      ∃ ttl, cache.cacheable response = some (entry.answer, ttl) := by
  unfold DnsCache.store at h
  split at h
  next answer ttl hcacheable =>
    refine .inr ⟨ttl, ?_⟩
    rw [DnsCache.insert, entryOf_onShard, if_pos rfl, Shard.insert, compact_map] at h
    rcases @evictOver_lookup layout _ (Shard.put layout
      (cache.shards (cache.shardIndex key)) key answer ttl now) key with hkept | hgone
    · rw [hkept, Shard.put, AList.lookup_insert, Option.some.injEq] at h
      rw [← h]
      exact hcacheable
    · rw [hgone] at h
      cases h
  next => exact .inl h

lemma serve_entry {b : β} (i : Nat) (h : serve layout access x s = some (b, t))
    (hentry : t.cache.entryOf key = some entry) :
    (∃ entry', s.cache.entryOf key = some entry' ∧ entry'.answer = entry.answer) ∨
      ∃ response ttl, Label.Stores key response ⟨i, ⟨β, access⟩, b, s, t⟩ ∧
        s.cache.cacheable response = some (entry.answer, ttl) := by
  cases access with
  | lookup key' claimRefresh =>
    simp only [serve] at h
    obtain ⟨-, rfl⟩ := h
    rcases lookupInner_cases s.cache key' claimRefresh (s.now + x.elapsed) with hc | hc
    · dsimp only at hentry
      rw [hc.2.2.2] at hentry
      refine .inl (entryOf_answer_of_modify ?_ hentry)
      exact fun _ => rfl
    · dsimp only at hentry
      rw [hc.2] at hentry
      exact .inl ⟨entry, hentry, rfl⟩
  | store key' response =>
    simp only [serve] at h
    obtain ⟨-, rfl⟩ := h
    by_cases hkey : key = key'
    · subst hkey
      rcases entryOf_store_self hentry with hold | ⟨ttl, hstored⟩
      · exact .inl ⟨entry, hold, rfl⟩
      · exact .inr ⟨response, ttl, ⟨rfl, rfl⟩, hstored⟩
    · rcases @entryOf_store layout s.cache _ _ hkey response (s.now + x.elapsed)
        with hsame | hgone
      · exact .inl ⟨entry, hsame ▸ hentry, rfl⟩
      · rw [hgone] at hentry
        cases hentry
  | suppressRefresh | releaseRefreshClaim =>
    obtain ⟨-, rfl⟩ := h
    refine .inl (entryOf_answer_of_modify ?_ hentry)
    exact fun _ => rfl
  | trySend key' =>
    simp only [serve] at h
    split at h
    all_goals
      cases h
      exact .inl ⟨entry, hentry, rfl⟩
  | recv =>
    simp only [serve] at h
    split at h
    · cases h
      exact .inl ⟨entry, hentry, rfl⟩
    · split at h
      · cases h
        exact .inl ⟨entry, hentry, rfl⟩
      · cases h
  | forward request =>
    cases h
    exact .inl ⟨entry, hentry, rfl⟩
  | cleanShard shard purgeStale =>
    cases h
    rcases @entryOf_cleanShard layout s.cache shard purgeStale (s.now + x.elapsed) key
      with hsame | hgone
    · exact .inl ⟨entry, hsame ▸ hentry, rfl⟩
    · rw [hgone] at hentry
      cases hentry

lemma entryOf_of_finds
    (hrun : (machine layout).run l.access.2 l.thread x l.before = some (l.result, l.after))
    (hfinds : Label.Finds key answer l) :
    ∃ entry, l.before.cache.entryOf key = some entry ∧ entry.answer = answer := by
  obtain ⟨thread, ⟨β, access⟩, found, s, t⟩ := l
  cases access with
  | lookup key' claimRefresh =>
    obtain ⟨rfl, hanswer⟩ := hfinds
    simp only [machine, serve, Option.some.injEq, Prod.mk.injEq] at hrun
    rw [← hrun.1] at hanswer
    unfold DnsCache.lookupInner at hanswer
    split at hanswer
    · cases hanswer
    next entry hentry =>
      refine ⟨entry, hentry, ?_⟩
      split at hanswer
      · exact Option.some.inj hanswer
      · split at hanswer
        · exact Option.some.inj hanswer
        · cases hanswer
  | _ => exact hfinds.elim

end Entries

section Passing

variable {layout : Layout}

lemma stored_of_finds (hrun : Pool.Run (machine layout) c labels c')
    (hempty : c.state.cache.entryOf key = none)
    (hl : l ∈ labels) (hfinds : Label.Finds key answer l) :
    ∃ m ∈ labels, ∃ response, Label.Stores key response m ∧ response.answers = answer.records := by
  obtain ⟨x, hstep⟩ := hrun.performs l hl
  obtain ⟨entry, hentry, rfl⟩ := entryOf_of_finds hstep hfinds
  refine hrun.cause (H := fun s => ∃ old, s.cache.entryOf key = some old ∧
    old.answer = entry.answer) ?_ ?_ l hl ⟨entry, hentry, rfl⟩
  · rintro m y hm ⟨old, hold, hsame⟩
    rcases serve_entry m.thread hm hold with ⟨older, holder, hanswer⟩ | ⟨response, ttl, hstores, hc⟩
    · exact .inl ⟨older, holder, hanswer.trans hsame⟩
    · exact .inr ⟨response, hstores, by rw [← hsame, cacheable_records hc]⟩
  · rintro ⟨old, hold, -⟩
    rw [hempty] at hold
    cases hold

lemma split_own {labels : List (Label DnsAccess Serving)} (hl : l ∈ labels) :
    ∃ first rest, (labels.filter fun m => m.thread == l.thread) = first ++ l :: rest :=
  mem_iff_append.mp (mem_filter.mpr ⟨hl, beq_self_eq_true _⟩)

variable {tasks : List Task} {s : Serving} {c : Pool DnsAccess Serving (Option Resolved)}
  {labels : List (Label DnsAccess Serving)} {key : CacheKey}

/-- **Signatures pass through** as long as every query for the question carries
the DO bit and no refresh of it is taken up: in every such run of queries, workers
and cleans on a cache without an entry of the question, a query for it that gets
an answer gets the records the upstreams gave to one of these queries. -/
theorem dnssec_passed_through (hrun : Pool.Run (machine layout) ⟨s, tasks.map Task.prog⟩ labels c)
    (hempty : s.cache.entryOf key = none)
    (hasked : ∀ task ∈ tasks, ∀ request, task.Forwards key request → request.dnssecOk = true)
    (hrefreshed : ∀ l ∈ labels, ¬ Label.Takes key l)
    {i : Nat} {task : Task} (htask : tasks[i]? = some task) {request : Message}
    (hkey : task.Forwards key request) {resolved : Resolved}
    (hend : c.threads[i]? = some (.ret (some resolved)))
    (hanswered : resolved.outcome ≠ .servfailSynthesized) :
    PassedThrough tasks labels key resolved.response.answers := by
  have hown : ∀ {j : Nat} {task : Task}, tasks[j]? = some task →
      (tasks.map Task.prog)[j]? = some task.prog := fun h => by simp [h]
  -- what this query was answered with
  obtain ⟨p, hp, hsteps⟩ := hrun.steps (hown htask)
  rw [hend, Option.some.injEq] at hp
  subst hp
  have horigin : ∀ {j : Nat} (task : Task), Along (machine layout) j _ _ [] task.prog :=
    fun task => task.origin
  obtain ⟨key', request', hforwards, hanswers⟩ := (horigin task).result hsteps resolved rfl
  obtain ⟨rfl, rfl⟩ : key' = key ∧ request' = request := by
    cases task with
    | query swr request question domain =>
      exact ⟨hforwards.1.trans hkey.1.symm, hforwards.2.trans hkey.2.symm⟩
    | _ => exact hkey.elim
  have hdo : ∀ {j : Nat} {task : Task}, tasks[j]? = some task → ∀ request,
      task.Forwards key' request → request.dnssecOk = true :=
    fun h => hasked _ (mem_of_getElem? h)
  rcases hanswers with hsynthesized | ⟨m, hm, forwarded, hbrings, hrecords⟩ |
    ⟨m, hm, answer, hfinds, hrecords⟩
  · exact absurd hsynthesized hanswered
  · obtain ⟨hm, hthread⟩ := mem_filter.mp hm
    rw [beq_iff_eq] at hthread
    exact ⟨m, hm, task, _, forwarded, hthread ▸ htask, hkey, hdo htask _ hkey, hbrings,
      congrArg _ hrecords⟩
  · -- the entry was stored by a query, which had it from its own forward
    obtain ⟨n, hn, response, hstores, hresponse⟩ :=
      stored_of_finds hrun hempty (mem_filter.mp hm).1 hfinds
    obtain ⟨first, rest, hsplit⟩ := split_own hn
    have hlt : n.thread < tasks.length := by simpa using hrun.thread_lt n hn
    have hwriter := getElem?_eq_getElem hlt
    obtain ⟨q, hq, hsteps⟩ := hrun.steps (hown hwriter)
    have hstep := (horigin tasks[n.thread]).step hsteps hsplit key' response hstores
    have hfirst : ∀ l ∈ first, l ∈ labels ∧ l.thread = n.thread := by
      intro l hl
      obtain ⟨hl, hthread⟩ := mem_filter.mp (hsplit ▸ mem_append_left _ hl)
      exact ⟨hl, beq_iff_eq.mp hthread⟩
    rcases hstep with ⟨l, hl, request, forwarded, hforwards, hbrings, rfl⟩ | ⟨l, hl, htakes⟩
    · refine ⟨l, (hfirst l hl).1, _, request, forwarded, ?_, hforwards,
        hdo hwriter request hforwards, hbrings, ?_⟩
      · rw [(hfirst l hl).2]
        exact hwriter
      · rw [hresponse]
        exact hrecords
    · exact absurd htakes (hrefreshed l (hfirst l hl).1)

end Passing

/-- An upstream that signs its answer for whoever sets the DO bit. -/
def signingUpstream (request : Message) : Option ForwardOutcome :=
  let reply := (Message.response 7 .query).addQuery addressQuery
  let address : Record := ⟨addressQuery.name, 300, .other 1 [192, 0, 2, 1]⟩
  let signature : Record := ⟨addressQuery.name, 300, .other 46 [0, 1, 8, 2]⟩
  some ⟨{ reply with
    answers := if request.dnssecOk then [address, signature] else [address] }, 0⟩

def Label.AsUpstream (upstream : Message → Option ForwardOutcome) :
    Label DnsAccess Serving → Prop
  | ⟨_, ⟨_, .forward request⟩, reply, _, _⟩ => reply = upstream request
  | _ => True

instance (upstream : Message → Option ForwardOutcome) (l : Label DnsAccess Serving) :
    Decidable (Label.AsUpstream upstream l) := by
  unfold Label.AsUpstream
  split <;> infer_instance

def doRequest (dnssecOk : Bool) : Message :=
  { (Message.query 7).addQuery addressQuery with edns := some ⟨1232, dnssecOk⟩ }

/-- A client asks for an address, with or without the DO bit. -/
def doTask (dnssecOk : Bool) : Task :=
  .query true (doRequest dnssecOk) addressQuery addressKey.domain

/-- The first query misses, is forwarded and stores its reply; the second is
answered from the cache. -/
def oneAfterAnother (dnssecOk : Bool) : List (Nat × Chance) :=
  [(0, .plain), (0, ⟨0, signingUpstream (doRequest dnssecOk), false⟩), (0, .plain), (1, .plain)]

/-- The answer records of a reply without their lifetimes. -/
def ForwardOutcome.bare (forwarded : ForwardOutcome) : List (Name × RData) :=
  forwarded.message.answers.map Record.bare

lemma oneAfterAnother_run (dnssecOk : Bool) :
    ∃ labels c resolved, Pool.Run (machine ⟨8, 56, 64⟩)
        ⟨idleServing 1000, [doTask dnssecOk, doTask true].map Task.prog⟩ labels c ∧
      (∀ l ∈ labels, Label.AsUpstream signingUpstream l ∧ ¬ Label.Takes addressKey l) ∧
      c.threads[1]? = some (.ret (some resolved)) ∧ resolved.outcome = .answered ∧
      some (resolved.response.answers.map Record.bare) =
        (signingUpstream (doRequest dnssecOk)).map ForwardOutcome.bare := by
  have hrun : (Pool.exec (machine ⟨8, 56, 64⟩)
      (⟨idleServing 1000, [doTask dnssecOk, doTask true].map Task.prog⟩ :
        Pool DnsAccess Serving (Option Resolved)) (oneAfterAnother dnssecOk)).any (fun r =>
      decide (∀ l ∈ r.1, Label.AsUpstream signingUpstream l ∧ ¬ Label.Takes addressKey l) &&
      ((r.2.threads[1]?.bind Prog.result?).join).any fun resolved =>
        resolved.outcome == .answered && some (resolved.response.answers.map Record.bare) ==
          (signingUpstream (doRequest dnssecOk)).map ForwardOutcome.bare) = true := by
    cases dnssecOk with
    | false => decide +kernel
    | true => decide +kernel
  obtain ⟨r, hexec, hr⟩ := (Option.any_eq_true _ _).mp hrun
  rw [Bool.and_eq_true, decide_eq_true_eq] at hr
  obtain ⟨resolved, hjoin, hresolved⟩ := (Option.any_eq_true _ _).mp hr.2
  simp only [Bool.and_eq_true, beq_iff_eq] at hresolved
  obtain ⟨p, hp, hresult⟩ := Option.bind_eq_some_iff.mp (Option.join_eq_some_iff.mp hjoin)
  refine ⟨r.1, r.2, resolved, Pool.run_of_exec hexec, hr.1, ?_, hresolved⟩
  rw [hp, Prog.eq_ret_of_result? hresult]

/-- **Signatures lost in the cache**: with one and the same upstream, a client
that sets the DO bit gets other records after a query without it than after one
with it, and not the ones the upstream gives to its request. -/
theorem unsigned_from_cache :
    ∃ labels c resolved labels' c' resolved', Pool.Run (machine ⟨8, 56, 64⟩)
        ⟨idleServing 1000, [doTask false, doTask true].map Task.prog⟩ labels c ∧
      Pool.Run (machine ⟨8, 56, 64⟩)
        ⟨idleServing 1000, [doTask true, doTask true].map Task.prog⟩ labels' c' ∧
      (∀ l ∈ labels ++ labels', Label.AsUpstream signingUpstream l) ∧
      c.threads[1]? = some (.ret (some resolved)) ∧ c'.threads[1]? = some (.ret (some resolved')) ∧
      resolved.response.answers.map Record.bare ≠ resolved'.response.answers.map Record.bare ∧
      some (resolved.response.answers.map Record.bare) ≠
        (signingUpstream (doRequest true)).map ForwardOutcome.bare := by
  obtain ⟨labels, c, resolved, hrun, hl, hend, -, hrecords⟩ := oneAfterAnother_run false
  obtain ⟨labels', c', resolved', hrun', hl', hend', -, hrecords'⟩ := oneAfterAnother_run true
  have hne : (signingUpstream (doRequest false)).map ForwardOutcome.bare ≠
      (signingUpstream (doRequest true)).map ForwardOutcome.bare := by decide
  rw [← hrecords] at hne
  refine ⟨labels, c, resolved, labels', c', resolved', hrun, hrun', ?_, hend, hend', ?_, hne⟩
  · intro l hmem
    rcases mem_append.mp hmem with hmem | hmem
    · exact (hl l hmem).1
    · exact (hl' l hmem).1
  · intro hsame
    rw [← hrecords', ← hsame] at hne
    exact hne rfl

theorem dnssec_passed_through_cached :
    ∃ labels c resolved, Pool.Run (machine ⟨8, 56, 64⟩)
        ⟨idleServing 1000, [doTask true, doTask true].map Task.prog⟩ labels c ∧
      c.threads[1]? = some (.ret (some resolved)) ∧
      PassedThrough [doTask true, doTask true] labels addressKey resolved.response.answers := by
  obtain ⟨labels, c, resolved, hrun, hl, hend, houtcome, -⟩ := oneAfterAnother_run true
  have hasked : ∀ task ∈ [doTask true, doTask true], ∀ request,
      task.Forwards addressKey request → request.dnssecOk = true := by
    intro task htask request hforwards
    simp only [mem_cons, not_mem_nil, or_false, or_self] at htask
    subst htask
    rw [hforwards.2]
    rfl
  have hanswered : resolved.outcome ≠ .servfailSynthesized := by
    rw [houtcome]
    exact AnswerOutcome.noConfusion
  exact ⟨labels, c, resolved, hrun, hend, dnssec_passed_through hrun rfl hasked
    (fun l hmem => (hl l hmem).2) (i := 1) rfl ⟨rfl, rfl⟩ hend hanswered⟩

end FastAdHunter.Dns
