import FastAdHunter.Dns.RefreshQuestion
import FastAdHunter.Dns.Serving

/-!
# What is taken for an upstream's reply

The two transports and the walk over the servers, as functions of what arrives:
datagrams on the socket of a query, bytes on the stream of a retry, and what an
exchange of the DNS library yields. A reply is recognised by its id and its
response bit alone.
-/

namespace FastAdHunter.Dns

open Lib

section Transports

variable (lib : WireLibrary)

/-- What a plain attempt receives: the id it drew, the datagrams on its socket
until the timeout, of which one may be an error (as may binding, connecting and
sending), and the bytes on the stream of its retry. -/
structure PlainArrivals where
  id : UInt16
  datagrams : List (Option Bytes)
  stream : Option Bytes

/-- A well-formed response with the id of the query. -/
def isReply (id : UInt16) (response : Message) : Bool :=
  response.metadata.id == id && response.metadata.messageType == .response

/-- Wait for a reply. A datagram beyond the budget loses its tail; one that is
nobody's reply is passed over. -/
def udpRoundTrip (requestId : UInt16) (replyBudget : Nat) : List (Option Bytes) → Option Message
  | [] => none
  | none :: _ => none
  | some datagram :: rest =>
    match lib.fromVec (datagram.take replyBudget) with
    | some response =>
      if isReply requestId response then some response
      else udpRoundTrip requestId replyBudget rest
    | none => udpRoundTrip requestId replyBudget rest

/-- The first frame of a stream. -/
def readFrame : Bytes → Option Bytes
  | high :: low :: rest =>
    let length := high.toNat * 256 + low.toNat
    if length ≤ rest.length then some (rest.take length) else none
  | _ => none

def tcpRoundTrip (requestBytes : Bytes) (requestId : UInt16) (stream : Option Bytes) :
    Option Message := do
  let stream ← stream
  if requestBytes.length < 65536 then
    let reply ← readFrame stream
    let response ← lib.fromVec reply
    if isReply requestId response then some response else none
  else none

/-- A plain attempt: a truncated reply is asked for again over a stream. -/
def Plain.query (request : Message) (arrivals : PlainArrivals) : Option Message := do
  let requestBytes ← lib.toVec request
  let response ← udpRoundTrip lib arrivals.id (maxUdpPayload request).toNat arrivals.datagrams
  if response.metadata.truncation then tcpRoundTrip lib requestBytes arrivals.id arrivals.stream
  else some response

/-- What one send on an exchange comes to. -/
inductive SendOutcome where
  | answer (response : Message)
  | timedOut
  | failed

/-- What an encrypted attempt meets: the connection it acquires, and whether that
is a new one, the outcome on it, and the same once more. -/
structure EncryptedArrivals where
  acquired : Option Bool
  first : SendOutcome
  reacquired : Bool
  second : SendOutcome

/-- An encrypted attempt: a send that failed on a connection held from before is
repeated once on a new one. -/
def Encrypted.query (arrivals : EncryptedArrivals) : Option Message := do
  let fresh ← arrivals.acquired
  match arrivals.first with
  | .answer response => some response
  | .timedOut => none
  | .failed =>
    if fresh then none
    else if arrivals.reacquired then
      match arrivals.second with
      | .answer response => some response
      | _ => none
    else none

/-- What one attempt receives within its wall-clock bound, or that it exceeds
it. -/
inductive Arrivals where
  | plain (arrivals : PlainArrivals)
  | encrypted (arrivals : EncryptedArrivals)
  | exceeded

def UpstreamServer.query (request : Message) : Arrivals → Option Message
  | .plain arrivals => Plain.query lib request arrivals
  | .encrypted arrivals => Encrypted.query arrivals
  | .exceeded => none

/-- The walk over the attempts that the health of the servers admits, by the
number of the server. -/
def walkAdaptive (request : Message) : List (UInt8 × Arrivals) → Option ForwardOutcome
  | [] => none
  | (endpoint, arrivals) :: rest =>
    match UpstreamServer.query lib request arrivals with
    | some response => some ⟨response, endpoint⟩
    | none => walkAdaptive request rest

end Transports

section Replies

variable (lib : WireLibrary) (request : Message)

def FirstDatagram (arrivals : PlainArrivals) (response : Message) : Prop :=
  ∃ before datagram after, arrivals.datagrams = before ++ some datagram :: after ∧
    (∀ d ∈ before, ∃ bytes, d = some bytes ∧
      ∀ m, lib.fromVec (bytes.take (maxUdpPayload request).toNat) = some m →
        isReply arrivals.id m = false) ∧
    lib.fromVec (datagram.take (maxUdpPayload request).toNat) = some response ∧
    isReply arrivals.id response = true

/-- The frame that answers on the stream. -/
def FrameReply (requestBytes : Bytes) (arrivals : PlainArrivals) (response : Message) : Prop :=
  requestBytes.length < 65536 ∧ ∃ stream reply, arrivals.stream = some stream ∧
    readFrame stream = some reply ∧ lib.fromVec reply = some response ∧
    isReply arrivals.id response = true

/-- What an attempt receives as its reply: the first datagram that is one, or
instead of a truncated one the frame on the stream; on an exchange, the answer to
the first send or to its repetition. -/
def ReplyIn : Arrivals → Message → Prop
  | .plain arrivals, response => ∃ requestBytes first, lib.toVec request = some requestBytes ∧
      FirstDatagram lib request arrivals first ∧
      (first.metadata.truncation = false ∧ response = first ∨
        first.metadata.truncation = true ∧ FrameReply lib requestBytes arrivals response)
  | .encrypted arrivals, response => ∃ fresh, arrivals.acquired = some fresh ∧
      (arrivals.first = .answer response ∨
        arrivals.first = .failed ∧ fresh = false ∧ arrivals.reacquired = true ∧
          arrivals.second = .answer response)
  | .exceeded, _ => False

def FirstReply (attempts : List (UInt8 × Arrivals)) (response : Message) : Prop :=
  ∃ failed attempt rest, attempts = failed ++ attempt :: rest ∧
    (∀ a ∈ failed, ∀ m, ¬ ReplyIn lib request a.2 m) ∧ ReplyIn lib request attempt.2 response

/-- The first reply repeats the question section of the request. -/
def RepeatsQuestion (attempts : List (UInt8 × Arrivals)) : Prop :=
  ∀ response, FirstReply lib request attempts response → response.queries = request.queries

variable {lib request}

variable {response : Message} {attempts : List (UInt8 × Arrivals)}

lemma udpRoundTrip_eq_some :
    udpRoundTrip lib arrivals.id (maxUdpPayload request).toNat arrivals.datagrams = some response ↔
      FirstDatagram lib request arrivals response := by
  obtain ⟨id, datagrams, stream⟩ := arrivals
  dsimp only [FirstDatagram]
  induction datagrams with
  | nil => simp [udpRoundTrip]
  | cons d rest ih =>
    -- the first datagram is passed over, or it is the one
    have hskip : ∀ bytes, d = some bytes →
        (∀ m, lib.fromVec (bytes.take (maxUdpPayload request).toNat) = some m →
          isReply id m = false) →
        (FirstDatagram lib request ⟨id, d :: rest, stream⟩ response ↔
          FirstDatagram lib request ⟨id, rest, stream⟩ response) := by
      intro bytes hd hno
      constructor
      · rintro ⟨before, datagram, after, heq, hbefore, hread, hreply⟩
        cases before with
        | nil =>
          obtain ⟨rfl, -⟩ := List.cons.inj heq
          cases hd
          rw [hno response hread] at hreply
          cases hreply
        | cons b before =>
          obtain ⟨-, hrest⟩ := List.cons.inj heq
          exact ⟨before, datagram, after, hrest,
            fun e he => hbefore e (List.mem_cons_of_mem b he), hread, hreply⟩
      · rintro ⟨before, datagram, after, heq, hbefore, hread, hreply⟩
        refine ⟨d :: before, datagram, after, congrArg (d :: ·) heq, ?_, hread, hreply⟩
        exact List.forall_mem_cons.mpr ⟨⟨bytes, hd, hno⟩, hbefore⟩
    cases d with
    | none =>
      constructor
      · rintro ⟨⟩
      · rintro ⟨before, datagram, after, heq, hbefore, -, -⟩
        cases before with
        | nil => cases heq
        | cons b before =>
          obtain ⟨rfl, -⟩ := List.cons.inj heq
          obtain ⟨bytes, hb, -⟩ := hbefore none List.mem_cons_self
          cases hb
    | some bytes =>
      cases hread : lib.fromVec (bytes.take (maxUdpPayload request).toNat) with
      | none =>
        simp only [udpRoundTrip, hread]
        exact ih.trans (hskip bytes rfl (by simp [hread])).symm
      | some m =>
        cases hm : isReply id m with
        | false =>
          simp only [udpRoundTrip, hread, hm]
          refine ih.trans (hskip bytes rfl fun m' hm' => ?_).symm
          rw [hread] at hm'
          cases hm'
          exact hm
        | true =>
          simp only [udpRoundTrip, hread, hm, if_true]
          constructor
          · rintro ⟨⟩
            exact ⟨[], bytes, rest, rfl, by simp, hread, hm⟩
          · rintro ⟨before, datagram, after, heq, hbefore, hread', -⟩
            cases before with
            | nil =>
              cases heq
              rw [← hread, hread']
            | cons b before =>
              obtain ⟨rfl, -⟩ := List.cons.inj heq
              obtain ⟨bytes', hb, hno⟩ := hbefore _ List.mem_cons_self
              cases hb
              rw [hno m hread] at hm
              cases hm

lemma tcpRoundTrip_eq_some :
    tcpRoundTrip lib requestBytes arrivals.id arrivals.stream = some response ↔
      FrameReply lib requestBytes arrivals response := by
  simp only [tcpRoundTrip, Option.bind_eq_bind, Option.bind_eq_some_iff]
  constructor
  · rintro ⟨stream, hstream, h⟩
    split at h
    next hlength =>
      obtain ⟨reply, hreply, h⟩ := Option.bind_eq_some_iff.mp h
      obtain ⟨m, hm, h⟩ := Option.bind_eq_some_iff.mp h
      split at h
      next hid =>
        cases h
        exact ⟨hlength, stream, reply, hstream, hreply, hm, hid⟩
      · cases h
    · cases h
  · rintro ⟨hlength, stream, reply, hstream, hreply, hm, hid⟩
    refine ⟨stream, hstream, ?_⟩
    rw [if_pos hlength, hreply, Option.bind_some, hm, Option.bind_some, if_pos hid]

lemma UpstreamServer.query_eq_some :
    UpstreamServer.query lib request arrivals = some response ↔ ReplyIn lib request arrivals response := by
  cases arrivals with
  | exceeded => simp [UpstreamServer.query, ReplyIn]
  | plain arrivals =>
    simp only [UpstreamServer.query, Plain.query, ReplyIn, Option.bind_eq_bind, Option.bind_eq_some_iff,
      udpRoundTrip_eq_some]
    constructor
    · rintro ⟨requestBytes, hbytes, first, hfirst, h⟩
      refine ⟨requestBytes, first, hbytes, hfirst, ?_⟩
      split at h
      next htrunc => exact Or.inr ⟨htrunc, tcpRoundTrip_eq_some.mp h⟩
      next htrunc =>
        cases h
        exact Or.inl ⟨by simpa using htrunc, rfl⟩
    · rintro ⟨requestBytes, first, hbytes, hfirst, ⟨htrunc, rfl⟩ | ⟨htrunc, hframe⟩⟩
      · exact ⟨requestBytes, hbytes, response, hfirst, by simp [htrunc]⟩
      · exact ⟨requestBytes, hbytes, first, hfirst, by
          simp [htrunc, tcpRoundTrip_eq_some.mpr hframe]⟩
  | encrypted arrivals =>
    obtain ⟨acquired, first, reacquired, second⟩ := arrivals
    simp only [UpstreamServer.query, Encrypted.query, Option.bind_eq_bind, Option.bind_eq_some_iff]
    refine exists_congr fun fresh => and_congr_right fun _ => ?_
    cases first with
    | answer m => simp
    | timedOut => simp
    | failed =>
      cases fresh with
      | true => simp
      | false =>
        cases reacquired with
        | false => simp
        | true => cases second <;> simp

lemma walkAdaptive_eq_some (h : walkAdaptive lib request attempts = some outcome) :
    FirstReply lib request attempts outcome.message := by
  induction attempts with
  | nil => cases h
  | cons attempt rest ih =>
    simp only [walkAdaptive] at h
    cases hquery : UpstreamServer.query lib request attempt.2 with
    | some response =>
      simp only [hquery, Option.some.injEq] at h
      subst h
      exact ⟨[], attempt, rest, rfl, by simp, UpstreamServer.query_eq_some.mp hquery⟩
    | none =>
      simp only [hquery] at h
      obtain ⟨failed, a, more, heq, hfailed, hreply⟩ := ih h
      refine ⟨attempt :: failed, a, more, congrArg (attempt :: ·) heq, ?_, hreply⟩
      refine List.forall_mem_cons.mpr ⟨fun m hm => ?_, hfailed⟩
      rw [UpstreamServer.query_eq_some.mpr hm] at hquery
      cases hquery

lemma FirstReply.unique
    (h : FirstReply lib request attempts m) (h' : FirstReply lib request attempts m') : m = m' := by
  have hreply : ∀ {a : Arrivals} {n n' : Message}, ReplyIn lib request a n →
      ReplyIn lib request a n' → n = n' := fun hn hn' =>
    Option.some.inj ((UpstreamServer.query_eq_some.mpr hn).symm.trans (UpstreamServer.query_eq_some.mpr hn'))
  obtain ⟨failed, a, rest, heq, hfailed, hm⟩ := h
  obtain ⟨failed', a', rest', heq', hfailed', hm'⟩ := h'
  rw [heq] at heq'
  rcases List.append_eq_append_iff.mp heq' with ⟨more, rfl, hrest⟩ | ⟨more, rfl, hrest⟩
  · cases more with
    | nil =>
      obtain ⟨rfl, -⟩ := List.cons.inj hrest
      exact hreply hm hm'
    | cons b more =>
      obtain ⟨rfl, -⟩ := List.cons.inj hrest
      exact absurd hm (hfailed' a (by simp) m)
  · cases more with
    | nil =>
      obtain ⟨rfl, -⟩ := List.cons.inj hrest
      exact hreply hm hm'
    | cons b more =>
      obtain ⟨rfl, -⟩ := List.cons.inj hrest
      exact absurd hm' (hfailed a' (by simp) m')

lemma FirstReply.queries_iff (h : FirstReply lib request attempts response) :
    response.queries = request.queries ↔ RepeatsQuestion lib request attempts := by
  constructor
  · intro heq m hm
    rw [hm.unique h, heq]
  · exact fun hrepeats => hrepeats response h

end Replies

section Network

variable (lib : WireLibrary) (layout : Layout)

/-- What a forward asks and what the servers send it. -/
structure Exchange where
  request : Message
  attempts : List (UInt8 × Arrivals)

/-- The tasks' shared state, and the latest exchange with the servers. -/
structure Network where
  serving : Serving
  latest : Option Exchange

/-- What the environment chooses: the time until the access, what the servers and
anyone else send, and whether the other end of the queue is gone. -/
structure Weather where
  elapsed : Nat
  attempts : List (UInt8 × Arrivals)
  closed : Bool

def Weather.chance (x : Weather) {β : Type} : DnsAccess β → Chance
  | .forward request => ⟨x.elapsed, walkAdaptive lib request x.attempts, x.closed⟩
  | _ => ⟨x.elapsed, none, x.closed⟩

def Weather.exchange (x : Weather) (latest : Option Exchange) {β : Type} :
    DnsAccess β → Option Exchange
  | .forward request => some ⟨request, x.attempts⟩
  | _ => latest

/-- The tasks on the network: a forward is a walk over the servers. -/
def networked : Machine DnsAccess Network Weather where
  run access _ x n := (serve layout access (x.chance lib access) n.serving).map fun r =>
    (r.1, ⟨r.2, x.exchange n.latest access⟩)

def Label.exchange : Label DnsAccess Network → Option Exchange
  | ⟨_, ⟨_, .forward _⟩, _, _, n⟩ => n.latest
  | _ => none

/-- The last exchange among the steps of a thread. -/
def lastExchange (past : List (Label DnsAccess Network)) : Option Exchange :=
  (past.filterMap Label.exchange).getLast?

/-- The step offers this reply to the cache. -/
def Label.stores (response : Message) : Label DnsAccess Network → Prop
  | ⟨_, ⟨_, .store _ response'⟩, _, _, _⟩ => response' = response
  | _ => False

def Task.Asks : Task → Message → Prop
  | .query _ request _ _, asked => asked = request
  | .worker lib id _, asked => ∃ key, asked = refreshQuery lib id key
  | .clean _, _ => False

end Network

section Kept

variable {lib : WireLibrary} {layout : Layout} {i : Nat} {asks : Message → Prop}
  {past : List (Label DnsAccess Network)} {request : Message} {query : WireQuery} {key : CacheKey}

/-- A message is the first reply of the last exchange. -/
def Accepted (lib : WireLibrary) (asks : Message → Prop) (past : List (Label DnsAccess Network))
    (response : Message) : Prop :=
  ∃ e, lastExchange past = some e ∧ asks e.request ∧
    FirstReply lib e.request e.attempts response

def StoresAccepted (lib : WireLibrary) (asks : Message → Prop)
    (past : List (Label DnsAccess Network)) (l : Label DnsAccess Network) : Prop :=
  ∀ response, Label.stores response l → Accepted lib asks past response

/-- What is relayed has the question section of an accepted reply. -/
def RelaysAccepted (lib : WireLibrary) (asks : Message → Prop)
    (past : List (Label DnsAccess Network)) (resolved : Resolved) : Prop :=
  resolved.upstreamUsed = true →
    ∃ response, Accepted lib asks past response ∧ resolved.response.queries = response.queries

variable {l : Label DnsAccess Network}

lemma lastExchange_append_of_none (h : Label.exchange l = none) :
    lastExchange (past ++ [l]) = lastExchange past := by
  simp [lastExchange, h]

lemma lastExchange_append_of_some
    (h : Label.exchange l = some e) : lastExchange (past ++ [l]) = some e := by
  simp [lastExchange, h]

lemma Accepted.append (h : Accepted lib asks past response) (hl : Label.exchange l = none) :
    Accepted lib asks (past ++ [l]) response := by
  obtain ⟨e, he, hasks, hfirst⟩ := h
  exact ⟨e, (lastExchange_append_of_none hl).trans he, hasks, hfirst⟩

lemma accepted_of_forward (hasks : asks request)
    (hrun : (networked lib layout).run (.forward request) i x n = some (some outcome, n')) :
    Accepted lib asks (past ++ [⟨i, ⟨_, .forward request⟩, some outcome, n, n'⟩])
      outcome.message := by
  simp only [networked, serve, Weather.chance, Weather.exchange, Option.map_some,
    Option.some.injEq, Prod.mk.injEq] at hrun
  obtain ⟨hreply, rfl⟩ := hrun
  exact ⟨⟨request, x.attempts⟩, lastExchange_append_of_some rfl, hasks,
    walkAdaptive_eq_some hreply⟩

lemma relayReply_keeps (h : Accepted lib asks past forwarded.message) :
    Along (networked lib layout) i (StoresAccepted lib asks) (RelaysAccepted lib asks) past
      (relayReply request key forwarded) := by
  intro x n b n' _
  refine ⟨?_, fun _ => ⟨forwarded.message, h.append rfl, rfl⟩⟩
  rintro response rfl
  exact h

lemma staleFallback_keeps
    (h : ∀ found n n', Along (networked lib layout) i (StoresAccepted lib asks)
      (RelaysAccepted lib asks) (past ++ [⟨i, ⟨_, .lookup key false⟩, found, n, n'⟩]) otherwise) :
    Along (networked lib layout) i (StoresAccepted lib asks) (RelaysAccepted lib asks) past
      (staleFallback request query key otherwise) := by
  intro x n found n' _
  refine ⟨fun response hstores => hstores.elim, ?_⟩
  cases found with
  | stale answer claimed => exact fun hused => Bool.noConfusion hused
  | fresh | miss => exact h _ n n'

lemma forwardFirst_keeps (hasks : asks request) :
    Along (networked lib layout) i (StoresAccepted lib asks) (RelaysAccepted lib asks) past
      (forwardFirst request query key) := by
  simp only [forwardFirst, Prog.lift_bind]
  intro x n reply n' hrun
  refine ⟨fun response hstores => hstores.elim, ?_⟩
  cases reply with
  | none => exact staleFallback_keeps fun _ _ _ hused => Bool.noConfusion hused
  | some forwarded =>
    have haccepted : Accepted lib asks (past ++ _) _ := accepted_of_forward hasks hrun
    dsimp only
    split
    · exact staleFallback_keeps fun _ _ _ => relayReply_keeps (haccepted.append rfl)
    · exact relayReply_keeps haccepted

lemma offer_keeps (hQ : ∀ past, Q past ()) :
    Along (networked lib layout) i (StoresAccepted lib asks) Q past (offer key) := by
  intro x n sent n' _
  refine ⟨fun response hstores => hstores.elim, ?_⟩
  cases sent with
  | true => exact hQ _
  | false =>
    intro x n b n' _
    exact ⟨fun response hstores => hstores.elim, hQ _⟩

lemma resolve_keeps (hasks : asks request) (swr : Bool) (domain : Bytes) :
    Along (networked lib layout) i (StoresAccepted lib asks) (RelaysAccepted lib asks) past
      (resolve swr request query domain) := by
  simp only [resolve, Prog.lift_bind]
  intro x n found n' _
  refine ⟨fun response hstores => hstores.elim, ?_⟩
  cases found with
  | miss => exact forwardFirst_keeps hasks
  | fresh answer remaining => exact fun hused => Bool.noConfusion hused
  | stale answer claimed =>
    dsimp only
    split
    · cases claimed with
      | true => exact Along.bind (offer_keeps fun _ hused => Bool.noConfusion hused)
      | false => exact fun hused => Bool.noConfusion hused
    · exact forwardFirst_keeps hasks

lemma refresh_keeps {id : UInt16} (hasks : ∀ key, asks (refreshQuery writer id key)) :
    Along (networked lib layout) i (StoresAccepted lib asks) (fun _ _ => True) past
      (refresh writer id key) := by
  have hrest : ∀ past stored, Along (networked lib layout) i (StoresAccepted lib asks)
      (fun _ _ => True) past
      (if stored = true then pure () else (DnsAccess.suppressRefresh key : Prog DnsAccess Unit)) := by
    intro past stored
    split
    · trivial
    · intro x n b n' _
      exact ⟨fun response hstores => hstores.elim, trivial⟩
  intro x n reply n' hrun
  refine ⟨fun response hstores => hstores.elim, ?_⟩
  cases reply with
  | none => exact hrest _ false
  | some outcome =>
    have haccepted : Accepted lib asks (past ++ _) _ := accepted_of_forward (hasks key) hrun
    intro x n stored n' _
    refine ⟨?_, hrest _ _⟩
    rintro response rfl
    exact haccepted

lemma worker_keeps {id : UInt16} (hasks : ∀ key, asks (refreshQuery writer id key)) (rounds : Nat) :
    Along (networked lib layout) i (StoresAccepted lib asks) (fun _ _ => True) past
      (worker writer id rounds) := by
  induction rounds generalizing past with
  | zero => trivial
  | succ rounds ih =>
    simp only [worker, Prog.lift_bind]
    intro x n received n' _
    refine ⟨fun response hstores => hstores.elim, ?_⟩
    cases received with
    | none => trivial
    | some key => exact Along.bind ((refresh_keeps hasks).mono fun _ _ _ => ih)

lemma clean_keeps (purgeStale : Bool) (shards : List (Fin shardCount)) :
    Along (networked lib layout) i (StoresAccepted lib asks) (fun _ _ => True) past
      (clean purgeStale shards) := by
  induction shards generalizing past with
  | nil => trivial
  | cons shard shards ih =>
    intro x n b n' _
    exact ⟨fun response hstores => hstores.elim, ih⟩

lemma Task.keeps (task : Task) :
    Along (networked lib layout) i (StoresAccepted lib task.Asks)
      (fun past result => ∀ resolved, result = some resolved →
        RelaysAccepted lib task.Asks past resolved) past task.prog := by
  cases task with
  | query swr request question domain =>
    have hasks : (Task.query swr request question domain).Asks request := rfl
    refine Along.bind ((resolve_keeps hasks swr domain).mono fun past resolved h => ?_)
    rintro resolved' ⟨⟩
    exact h
  | worker writer id rounds =>
    refine Along.bind ((worker_keeps (fun key => ⟨key, rfl⟩) rounds).mono fun past _ _ => ?_)
    rintro resolved ⟨⟩
  | clean purgeStale =>
    refine Along.bind ((clean_keeps purgeStale _).mono fun past _ _ => ?_)
    rintro resolved ⟨⟩

end Kept

section Questions

variable {lib : WireLibrary} {layout : Layout} {i : Nat}

/-- For the last exchange of these steps, what was kept of it has the question
section of its request exactly when the first reply to arrive repeats that. -/
def AnswersIffRepeated (lib : WireLibrary) (task : Task) (past : List (Label DnsAccess Network))
    (queries : List WireQuery) : Prop :=
  ∃ e, lastExchange past = some e ∧ task.Asks e.request ∧
    (queries = e.request.queries ↔ RepeatsQuestion lib e.request e.attempts)

lemma Accepted.answersIffRepeated (h : Accepted lib task.Asks past response) :
    AnswersIffRepeated lib task past response.queries := by
  obtain ⟨e, he, hasks, hfirst⟩ := h
  exact ⟨e, he, hasks, hfirst.queries_iff⟩

/-- **The question of a reply.** In every run of queries, workers and cleans and
whatever arrives: a reply that a task stores in the cache or relays to its client
has the question section of the request it was accepted for exactly when the
first well-formed response with the id of that request repeats it. Nothing else is
asked of a reply. -/
theorem kept_answers_question_iff {c c' : Pool DnsAccess Network (Option Resolved)}
    {labels : List (Label DnsAccess Network)}
    (hrun : Pool.Run (networked lib layout) c labels c') {task : Task}
    (hstart : c.threads[i]? = some task.prog) :
    (∀ first l rest response, (labels.filter fun l => l.thread == i) = first ++ l :: rest →
      Label.stores response l → AnswersIffRepeated lib task first response.queries) ∧
    ∀ resolved, c'.threads[i]? = some (.ret (some resolved)) → resolved.upstreamUsed = true →
      AnswersIffRepeated lib task (labels.filter fun l => l.thread == i)
        resolved.response.queries := by
  obtain ⟨p, hp, hsteps⟩ := hrun.steps hstart
  have hkeeps : Along (networked lib layout) i _ _ [] task.prog := task.keeps
  constructor
  · intro first l rest response hsplit hstores
    exact (hkeeps.step hsteps hsplit response hstores).answersIffRepeated
  · intro resolved hend hused
    rw [hend, Option.some.injEq] at hp
    subst hp
    obtain ⟨response, haccepted, hqueries⟩ := hkeeps.result hsteps resolved rfl hused
    rw [hqueries]
    exact haccepted.answersIffRepeated

/-- A response to another question than the client's, with the id the forward
drew. -/
def spoofedReply : Message :=
  let reply := (Message.response 0x2a17 .query).addQuery ⟨⟨[lit "e"], by decide⟩, 1, 1⟩
  { reply with
    metadata := { reply.metadata with recursionDesired := true, recursionAvailable := true }
    answers := [⟨⟨[lit "e"], by decide⟩, 300, .a ⟨192, 0, 2, 66⟩⟩] }

def spoofedPacket : Bytes :=
  [0x2a, 0x17, 0x81, 0x80, 0, 1, 0, 1, 0, 0, 0, 0, 1, 0x65, 0, 0, 1, 0, 1,
    0xc0, 0x0c, 0, 1, 0, 1, 0, 0, 1, 0x2c, 0, 4, 192, 0, 2, 66]

/-- A library that reads that packet. -/
def spoofedLibrary : WireLibrary :=
  { readingLibrary with fromVec := fun bytes => if bytes = spoofedPacket then some spoofedReply
                                                else none }

/-- The client's query misses, the packet arrives on its socket, and the reply is
stored. -/
def spoofedSchedule : List (Nat × Weather) :=
  [(0, ⟨0, [], false⟩), (0, ⟨0, [(0, .plain ⟨0x2a17, [some spoofedPacket], none⟩)], false⟩),
    (0, ⟨0, [], false⟩)]

lemma spoofed_run :
    ∃ labels c resolved, Pool.Run (networked spoofedLibrary ⟨8, 56, 64⟩)
        ⟨⟨idleServing 1000, none⟩, [(addressTask true).prog]⟩ labels c ∧
      c.threads[0]? = some (.ret (some resolved)) ∧ resolved = .forwarded { spoofedReply with
        metadata := { spoofedReply.metadata with id := 7 } } .answered 0 ∧
      c.state.serving.cache.lookup addressKey c.state.serving.now =
        .fresh ⟨spoofedReply.answers, [], .noError⟩ 300 := by
  obtain ⟨r, hexec, hr⟩ := (Option.any_eq_true _ _).mp
    (show (Pool.exec (networked spoofedLibrary ⟨8, 56, 64⟩)
        (⟨⟨idleServing 1000, none⟩, [(addressTask true).prog]⟩ :
          Pool DnsAccess Network (Option Resolved)) spoofedSchedule).any (fun r =>
        (r.2.threads[0]?.bind Prog.result?).join == some (.forwarded { spoofedReply with
          metadata := { spoofedReply.metadata with id := 7 } } .answered 0) &&
        r.2.state.serving.cache.lookup addressKey r.2.state.serving.now ==
          .fresh ⟨spoofedReply.answers, [], .noError⟩ 300) = true by decide +kernel)
  simp only [Bool.and_eq_true, beq_iff_eq] at hr
  obtain ⟨p, hp, hresult⟩ := Option.bind_eq_some_iff.mp (Option.join_eq_some_iff.mp hr.1)
  refine ⟨r.1, r.2, _, Pool.run_of_exec hexec, ?_, rfl, hr.2⟩
  rw [hp, Prog.eq_ret_of_result? hresult]

/-- **A reply to another question** is relayed to the client, and its records are
served to the next one. -/
theorem kept_for_another_question :
    ∃ labels c resolved, Pool.Run (networked spoofedLibrary ⟨8, 56, 64⟩)
        ⟨⟨idleServing 1000, none⟩, [(addressTask true).prog]⟩ labels c ∧
      c.threads[0]? = some (.ret (some resolved)) ∧ resolved.upstreamUsed = true ∧
      resolved.response.queries ≠ ((Message.query 7).addQuery addressQuery).queries ∧
      c.state.serving.cache.lookup addressKey c.state.serving.now =
        .fresh ⟨spoofedReply.answers, [], .noError⟩ 300 := by
  obtain ⟨labels, c, resolved, hrun, hend, rfl, hfresh⟩ := spoofed_run
  exact ⟨labels, c, _, hrun, hend, rfl, by decide, hfresh⟩

theorem kept_answers_question_iff_spoofed :
    ∃ labels c resolved, Pool.Run (networked spoofedLibrary ⟨8, 56, 64⟩)
        ⟨⟨idleServing 1000, none⟩, [(addressTask true).prog]⟩ labels c ∧
      c.threads[0]? = some (.ret (some resolved)) ∧ resolved.upstreamUsed = true ∧
      AnswersIffRepeated spoofedLibrary (addressTask true) (labels.filter fun l => l.thread == 0)
        resolved.response.queries := by
  obtain ⟨labels, c, resolved, hrun, hend, rfl, -⟩ := spoofed_run
  exact ⟨labels, c, _, hrun, hend, rfl,
    (kept_answers_question_iff hrun rfl).2 _ hend rfl⟩

end Questions

end FastAdHunter.Dns
