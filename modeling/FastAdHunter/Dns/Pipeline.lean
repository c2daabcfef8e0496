import FastAdHunter.Dns.Response
import FastAdHunter.Rules.Matcher

/-!
# The DNS pipeline

One request: decode, judge the first question, then synthesise an answer or
resolve. What a request does to the rest of the system is a list of effects, so
that "what the pipeline sends upstream" can be read off a run. A stale hit is
answered from the cache and hands its key to the refresh pool, which rebuilds a
question from it.
-/

namespace FastAdHunter.Dns

open Lib Net Rules List

section Cache

/-- What an answer is cached under: the lower-case text of the name. -/
structure CacheKey where
  domain : Bytes
  qtype : RecordType
  qclass : DnsClass
  deriving DecidableEq

inductive Lookup where
  | fresh (answer : CachedAnswer) (remaining : UInt32)
  | stale (answer : CachedAnswer) (claimedRefresh : Bool)
  | miss
  deriving DecidableEq

def staleServeTtl : UInt32 := 30

variable (lib : WireLibrary)

/-- The name a key is read back as; the root when it cannot be read. -/
def CacheKey.name (key : CacheKey) : Name :=
  (lib.fromAscii key.domain).getD .root

/-- The question the refresh pool rebuilds from a key. -/
def CacheKey.question (key : CacheKey) : WireQuery :=
  ⟨key.name lib, key.qtype, key.qclass⟩

def refreshQuery (id : UInt16) (key : CacheKey) : Message :=
  let request := (Message.query id).addQuery (key.question lib)
  { request with metadata := { request.metadata with recursionDesired := true } }

end Cache

section Resolve

inductive StaleServe where
  | fromSwr
  | afterForwardFailure
  deriving DecidableEq

inductive AnswerOutcome where
  | answered
  | servfailRelayed
  | refusedRelayed
  | servfailSynthesized
  deriving DecidableEq

structure Resolved where
  response : Message
  cacheHit : Bool
  upstreamUsed : Bool
  stale : Option StaleServe
  outcome : AnswerOutcome
  endpoint : Option UInt8
  deriving DecidableEq

def Resolved.blocked (response : Message) : Resolved :=
  ⟨response, false, false, none, .answered, none⟩

def Resolved.fromCache (response : Message) (stale : Option StaleServe) : Resolved :=
  ⟨response, true, false, stale, .answered, none⟩

def Resolved.forwarded (response : Message) (outcome : AnswerOutcome) (endpoint : UInt8) :
    Resolved :=
  ⟨response, false, true, none, outcome, some endpoint⟩

def Resolved.synthesizedServfail (response : Message) : Resolved :=
  ⟨response, false, false, none, .servfailSynthesized, none⟩

structure ForwardOutcome where
  message : Message
  endpoint : UInt8
  deriving DecidableEq

/-- What a request does outside the pipeline. -/
inductive Effect where
  | forward (request : Message)
  | offer (key : CacheKey)
  | store (key : CacheKey) (response : Message)
  deriving DecidableEq

/-- What a request meets outside the pipeline: the cache when it is first read
and when it is read again after a forward, the upstreams, and whether the
refresh queue has room. -/
structure Surroundings where
  cached : CacheKey → Lookup
  cachedAgain : CacheKey → Lookup
  forward : Message → Option ForwardOutcome
  queueRoom : Bool

/-- The state of the pipeline a request is judged with. -/
structure Pipeline where
  lib : WireLibrary
  matcher : Matcher
  active : ActivePolicies
  blockingTtl : UInt32
  swr : Bool

def outcomeOf (responseCode : ResponseCode) : AnswerOutcome :=
  match responseCode with
  | .servFail => .servfailRelayed
  | .refused => .refusedRelayed
  | _ => .answered

variable (around : Surroundings)

/-- The client gets the upstream's answer under its own id, and the cache
sees it. -/
def relay (request : Message) (key : CacheKey) (forwarded : ForwardOutcome) :
    Resolved × List Effect :=
  let response := forwarded.message
  (.forwarded
      { response with metadata := { response.metadata with id := request.metadata.id } }
      (outcomeOf response.metadata.responseCode) forwarded.endpoint,
    [.forward request, .store key response])

/-- Ask the upstreams, and fall back on a stale answer when they fail. -/
def forwardRequest (request : Message) (query : WireQuery) (key : CacheKey) :
    Resolved × List Effect :=
  let stale := fun answer => (Resolved.fromCache
    (fromCache request query answer staleServeTtl) (some .afterForwardFailure),
    [Effect.forward request])
  match around.forward request with
  | some forwarded =>
    if forwarded.message.metadata.responseCode = .servFail then
      match around.cachedAgain key with
      | .stale answer _ => stale answer
      | _ => relay request key forwarded
    else relay request key forwarded
  | none =>
    match around.cachedAgain key with
    | .stale answer _ => stale answer
    | _ => (.synthesizedServfail (error request .servFail), [.forward request])

/-- The cache first, then the upstreams. A stale hit does not reach the
upstreams when there is a refresh pool. -/
def Pipeline.resolve (p : Pipeline) (request : Message) (query : WireQuery)
    (domain : Bytes) : Resolved × List Effect :=
  let key : CacheKey := ⟨domain, query.queryType, query.queryClass⟩
  match around.cached key with
  | .fresh answer remaining =>
    (.fromCache (fromCache request query answer remaining) none, [])
  | .stale answer claimedRefresh =>
    if p.swr then
      (.fromCache (fromCache request query answer staleServeTtl) (some .fromSwr),
        -- a full queue drops the job
        if claimedRefresh && around.queueRoom then [.offer key] else [])
    else forwardRequest around request query key
  | .miss => forwardRequest around request query key

end Resolve

section Handle

inductive Transport where
  | udp | tcp | dot | doh
  deriving DecidableEq

/-- What became of a request: the reply, the verdict of its event, and the
effects in order. -/
structure Handled where
  reply : Option Bytes
  verdict : Option MatchDecision
  effects : List Effect
  deriving DecidableEq

variable (p : Pipeline)

/-- The text a question is judged and cached under. -/
def Pipeline.domainText (query : WireQuery) : Bytes :=
  lower (domainOf p.lib query.name)

/-- The verdict on a question of a client. -/
def Pipeline.judge (clientIp : IpAddr) (query : WireQuery) : Option MatchDecision :=
  p.matcher.lookupIn (p.domainText query) (toFahQueryType query.queryType)
    (p.matcher.contextFor clientIp p.active)

/-- A request with a first question. -/
def Pipeline.answer (around : Surroundings) (request : Message) (query : WireQuery)
    (clientIp : IpAddr) (budget : UInt16) : Option Handled := do
  let decision ← p.judge clientIp query
  let (resolved, effects) ←
    match decision with
    | .block rule => do
        let rewrite ← p.matcher.rewrite rule
        pure (Resolved.blocked (blocked request query p.blockingTtl rewrite), [])
    | _ => pure (p.resolve around request query (p.domainText query))
  return {
    reply := some (encodeForTransport p.lib resolved.response budget)
    verdict := some decision
    effects := effects }

/-- Handle one packet. Nothing is sent back for a packet that cannot be read or
is not a query; `none` is a panic. -/
def Pipeline.handle (around : Surroundings) (raw : Bytes) (clientIp : IpAddr)
    (transport : Transport) : Option Handled :=
  match p.lib.fromVec raw with
  | none => some ⟨none, none, []⟩
  | some request =>
    let budget := if transport = .udp then maxUdpPayload request else 65535
    if request.metadata.messageType ≠ .query then some ⟨none, none, []⟩
    else if request.metadata.opCode ≠ .query then
      some ⟨some (encodeForTransport p.lib (error request .notImp) budget), none, []⟩
    else
      match request.queries with
      | [] =>
        some ⟨some (encodeForTransport p.lib (error request .formErr) budget), none, []⟩
      | query :: _ => p.answer around request query clientIp.toCanonical budget

end Handle

section Sent

variable {p : Pipeline} {around : Surroundings}

/-- The verdict on a question is a block. -/
def Pipeline.Blocked (p : Pipeline) (clientIp : IpAddr) (query : WireQuery) : Prop :=
  ∃ rule, p.judge clientIp query = some (.block rule)

instance (clientIp : IpAddr) (query : WireQuery) : Decidable (p.Blocked clientIp query) :=
  match h : p.judge clientIp query with
  | some (.block rule) => isTrue ⟨rule, h⟩
  | some (.allow rule) => isFalse fun ⟨rule', h'⟩ => by rw [h] at h'; cases h'
  | some .pass => isFalse fun ⟨rule', h'⟩ => by rw [h] at h'; cases h'
  | none => isFalse fun ⟨rule', h'⟩ => by rw [h] at h'; cases h'

/-- The message an effect hands to the forwarder. The refresh pool picks an id
of its own. -/
def Effect.handed (lib : WireLibrary) (id : UInt16) : Effect → Option Message
  | .forward request => some request
  | .offer key => some (refreshQuery lib id key)
  | .store _ _ => none

/-- The questions of the messages handed to the forwarder. -/
def sent (lib : WireLibrary) (id : UInt16) (effects : List Effect) : List WireQuery :=
  (effects.filterMap (Effect.handed lib id)).flatMap Message.queries

@[simp] lemma sent_nil (lib : WireLibrary) (id : UInt16) : sent lib id [] = [] := rfl

lemma sent_forwardRequest (lib : WireLibrary) (id : UInt16) (request : Message)
    (query : WireQuery) (key : CacheKey) :
    sent lib id (forwardRequest around request query key).2 = request.queries := by
  have hone : sent lib id [.forward request] = request.queries := by
    simp [sent, Effect.handed]
  have htwo : ∀ response, sent lib id [.forward request, .store key response] =
      request.queries := by
    simp [sent, Effect.handed]
  rw [forwardRequest]
  cases around.forward request with
  | none =>
    dsimp only
    split
    · exact hone
    · exact hone
  | some forwarded =>
    dsimp only
    split
    · split
      · exact hone
      · exact htwo _
    · exact htwo _

/-- The questions that leave with a request, or for the refresh it triggers,
without having been judged: the later ones of a message that is forwarded, and
the one rebuilt from the key of a stale answer. -/
def Pipeline.unjudged (p : Pipeline) (around : Surroundings) (query : WireQuery)
    (rest : List WireQuery) : List WireQuery :=
  let key : CacheKey := ⟨p.domainText query, query.queryType, query.queryClass⟩
  match around.cached key with
  | .fresh _ _ => []
  | .stale _ claimedRefresh =>
    if p.swr then if claimedRefresh && around.queueRoom then [key.question p.lib] else []
    else rest
  | .miss => rest

lemma sent_resolve (id : UInt16) (hqueries : request.queries = query :: rest)
    {P : WireQuery → Prop} (hquery : P query) :
    (∀ q ∈ sent p.lib id (p.resolve around request query (p.domainText query)).2, P q) ↔
      ∀ q ∈ p.unjudged around query rest, P q := by
  have hforward : ∀ key, (∀ q ∈ sent p.lib id (forwardRequest around request query key).2, P q) ↔
      ∀ q ∈ rest, P q := by
    intro key
    rw [sent_forwardRequest, hqueries, forall_mem_cons]
    exact and_iff_right hquery
  rw [Pipeline.resolve, Pipeline.unjudged]
  cases around.cached ⟨p.domainText query, query.queryType, query.queryClass⟩ with
  | fresh answer remaining => exact Iff.rfl
  | miss => exact hforward _
  | stale answer claimedRefresh =>
    dsimp only
    by_cases hswr : p.swr = true
    · rw [if_pos hswr, if_pos hswr]
      split
      · exact Iff.rfl
      · exact Iff.rfl
    · rw [if_neg hswr, if_neg hswr]
      exact hforward _

variable {expectedRules : Nat} {policies : UInt16} {lists : List SourceList}

lemma judge_of_compiled (hm : compile expectedRules policies lists = some p.matcher)
    (clientIp : IpAddr) (query : WireQuery) :
    ∃ decision, p.judge clientIp query = some decision ∧
      ∀ rule, decision = .block rule → ∃ payload, p.matcher.rewrite rule = some payload := by
  have hrules := compile_ruleset hm
  obtain ⟨d, hlookup, hverdict⟩ := hrules.domain.lookupDomain_complete (p.domainText query)
    (some (qtypeBit (toFahQueryType query.queryType))) (p.matcher.contextFor clientIp p.active)
  refine ⟨.ofDomain d, by rw [Pipeline.judge, Matcher.lookupIn, hlookup]; rfl, ?_⟩
  intro rule hrule
  cases d with
  | allow i => cases hrule
  | pass => cases hrule
  | block i =>
    cases hrule
    obtain ⟨stored, hstored, -⟩ := hverdict.1
    exact hrules.rewrite_ofDomain hstored

lemma Pipeline.answer_of_compiled
    (hm : compile expectedRules policies lists = some p.matcher) (around : Surroundings)
    (request : Message) (query : WireQuery) (clientIp : IpAddr) (budget : UInt16) :
    ∃ out, p.answer around request query clientIp budget = some out ∧
      out.verdict = p.judge clientIp query ∧ (p.Blocked clientIp query → out.effects = []) ∧
      (¬ p.Blocked clientIp query →
        out.effects = (p.resolve around request query (p.domainText query)).2) := by
  obtain ⟨decision, hjudge, hrewrite⟩ := judge_of_compiled hm clientIp query
  simp only [Pipeline.answer, Pipeline.Blocked, hjudge, Option.bind_eq_bind, Option.bind_some]
  cases decision with
  | block rule =>
    obtain ⟨payload, hpayload⟩ := hrewrite rule rfl
    dsimp only
    rw [hpayload]
    exact ⟨_, rfl, rfl, fun _ => rfl, fun hpass => absurd ⟨rule, rfl⟩ hpass⟩
  | allow | pass =>
    refine ⟨_, rfl, rfl, ?_, fun _ => rfl⟩
    rintro ⟨rule', hblock⟩
    cases hblock

/-- A packet that asks something: a query with a first question. -/
structure Asks (lib : WireLibrary) (raw : Bytes) (request : Message) (query : WireQuery)
    (rest : List WireQuery) : Prop where
  decoded : lib.fromVec raw = some request
  messageType : request.metadata.messageType = .query
  opCode : request.metadata.opCode = .query
  queries : request.queries = query :: rest

lemma Asks.handle_eq (h : Asks p.lib raw request query rest) (clientIp : IpAddr)
    (transport : Transport) :
    p.handle around raw clientIp transport = p.answer around request query clientIp.toCanonical
        (if transport = .udp then maxUdpPayload request else 65535) := by
  simp only [Pipeline.handle, h.decoded, h.messageType, h.opCode, h.queries, ne_eq,
    not_true_eq_false, if_false]

lemma Asks.unique (h : Asks lib raw request query rest) (h' : Asks lib raw request' query' rest') :
    query = query' ∧ rest = rest' := by
  have heq := Option.some.inj (h.decoded.symm.trans h'.decoded)
  subst heq
  exact List.cons.inj (h.queries.symm.trans h'.queries)

lemma handle_of_not_asks (h : ¬ ∃ request query rest, Asks p.lib raw request query rest)
    (clientIp : IpAddr) (transport : Transport) :
    ∃ out, p.handle around raw clientIp transport = some out ∧ out.effects = [] := by
  rw [Pipeline.handle]
  cases hdecoded : p.lib.fromVec raw with
  | none => exact ⟨_, rfl, rfl⟩
  | some request =>
    dsimp only
    by_cases htype : request.metadata.messageType = .query
    · by_cases hcode : request.metadata.opCode = .query
      · rw [if_neg (not_not.mpr htype), if_neg (not_not.mpr hcode)]
        cases hqueries : request.queries with
        | nil => exact ⟨_, rfl, rfl⟩
        | cons query rest =>
          exact absurd ⟨request, query, rest, hdecoded, htype, hcode, hqueries⟩ h
      · rw [if_neg (not_not.mpr htype), if_pos hcode]
        exact ⟨_, rfl, rfl⟩
    · rw [if_pos htype]
      exact ⟨_, rfl, rfl⟩

/-- **Which requests send no blocked question upstream.** Every request is
handled, and no question of a message it hands to the forwarder is blocked for
its client exactly when no unjudged question of it is. -/
theorem forwards_unblocked_iff (hm : compile expectedRules policies lists = some p.matcher)
    (around : Surroundings) (raw : Bytes) (clientIp : IpAddr) (transport : Transport)
    (id : UInt16) :
    ∃ out, p.handle around raw clientIp transport = some out ∧
      ((∀ q ∈ sent p.lib id out.effects, ¬ p.Blocked clientIp.toCanonical q) ↔
        ∀ request query rest, Asks p.lib raw request query rest →
          ¬ p.Blocked clientIp.toCanonical query →
            ∀ q ∈ p.unjudged around query rest, ¬ p.Blocked clientIp.toCanonical q) := by
  by_cases hasks : ∃ request query rest, Asks p.lib raw request query rest
  case neg =>
    obtain ⟨out, hout, heffects⟩ := handle_of_not_asks hasks clientIp transport
    refine ⟨out, hout, ?_⟩
    rw [heffects]
    constructor
    · exact fun _ request query rest hask => absurd ⟨request, query, rest, hask⟩ hasks
    · exact fun _ => by simp
  obtain ⟨request, query, rest, hask⟩ := hasks
  obtain ⟨out, hout, -, hblocked, hpass⟩ := Pipeline.answer_of_compiled hm around request
    query clientIp.toCanonical
    (if transport = .udp then maxUdpPayload request else 65535)
  refine ⟨out, by rw [hask.handle_eq]; exact hout, ?_⟩
  by_cases hfirst : p.Blocked clientIp.toCanonical query
  · rw [hblocked hfirst]
    constructor
    · intro _ request' query' rest' hask' hnot
      exact absurd hfirst ((hask.unique hask').1 ▸ hnot)
    · exact fun _ => by simp
  · rw [hpass hfirst, sent_resolve id hask.queries hfirst]
    constructor
    · intro h request' query' rest' hask' _
      obtain ⟨rfl, rfl⟩ := hask.unique hask'
      exact h
    · exact fun h => h request query rest hask hfirst

end Sent

def sampleByte (first : Bool) (b : UInt8) : Bytes :=
  if isAsciiAlphanumeric b || b == ch '_' || (b == ch '-' && !first) then [b]
  else if 33 ≤ b && b ≤ 126 then [ch '\\', b]
  else [ch '\\', 48 + b / 64, 48 + b / 8 % 8, 48 + b % 8]

lemma dot_not_mem_sampleByte :
    ∀ b : UInt8, ∀ first, b ≠ ch '.' → ch '.' ∉ sampleByte first b := by
  decide +kernel

lemma sampleByte_verbatim (h : ∀ c ∈ sampleByte first b, isDomainByte c = true) :
    sampleByte first b = [b] ∧ b ≠ ch '.' := by
  have hescape : ch '\\' ∉ sampleByte first b := fun hmem => absurd (h _ hmem) (by decide)
  rw [sampleByte] at hescape ⊢
  split at hescape
  · next hplain =>
    rw [if_pos hplain]
    refine ⟨rfl, ?_⟩
    rintro rfl
    cases first <;> exact absurd hplain (by decide)
  · split at hescape
    all_goals exact absurd mem_cons_self hescape

def sampleEscape : Bytes → Bytes
  | [] => []
  | b :: rest => sampleByte true b ++ rest.flatMap (sampleByte false)

def sampleLabel (label : Bytes) : Bytes :=
  if label = lit "xn--nxasmq6b" then
    [0xce, 0xb2, 0xcf, 0x8c, 0xce, 0xbb, 0xce, 0xbf, 0xcf, 0x83]
  else sampleEscape label

lemma flatMap_sampleByte_verbatim {rest : Bytes}
    (h : ∀ c ∈ rest.flatMap (sampleByte false), isDomainByte c = true) :
    rest.flatMap (sampleByte false) = rest ∧ ch '.' ∉ rest := by
  induction rest with
  | nil => exact ⟨rfl, not_mem_nil⟩
  | cons b rest ih =>
    rw [flatMap_cons] at h ⊢
    obtain ⟨hb, hdot⟩ := sampleByte_verbatim (b := b) fun c hc => h c (mem_append_left _ hc)
    obtain ⟨hrest, hdots⟩ := ih fun c hc => h c (mem_append_right _ hc)
    rw [hb, hrest, mem_cons, not_or]
    exact ⟨rfl, fun e => hdot e.symm, hdots⟩

def sampleLibrary (packets : List (Bytes × Message)) : WireLibrary where
  fromVec := fun raw => packets.lookup raw
  toVec := fun _ => some []
  truncate := id
  showLabel := sampleLabel
  fromAscii := fun _ => none
  oneLabel := by
    intro label hdot
    rw [sampleLabel]
    split
    · decide
    · cases label with
      | nil => exact hdot
      | cons b rest =>
        rw [mem_cons, not_or] at hdot
        rw [sampleEscape, mem_append, mem_flatMap, not_or]
        refine ⟨dot_not_mem_sampleByte b true fun e => hdot.1 e.symm, ?_⟩
        rintro ⟨c, hc, hmem⟩
        exact dot_not_mem_sampleByte c false (fun e => hdot.2 (e ▸ hc)) hmem
  verbatim := by
    intro label hbytes
    rw [sampleLabel] at hbytes ⊢
    split at hbytes
    · exact absurd (hbytes 0xce (by decide)) (by decide)
    · next hlabel =>
      rw [if_neg hlabel]
      cases label with
      | nil => exact ⟨rfl, not_mem_nil⟩
      | cons b rest =>
        rw [sampleEscape] at hbytes ⊢
        obtain ⟨hb, hdot⟩ := sampleByte_verbatim (b := b) fun c hc =>
          hbytes c (mem_append_left _ hc)
        obtain ⟨hrest, hdots⟩ := flatMap_sampleByte_verbatim fun c hc =>
          hbytes c (mem_append_right _ hc)
        rw [hb, hrest, mem_cons, not_or]
        exact ⟨rfl, fun e => hdot e.symm, hdots⟩

def samplePipeline (packets : List (Bytes × Message)) (m : Matcher) : Pipeline where
  lib := sampleLibrary packets
  matcher := m
  active := ⟨[], []⟩
  blockingTtl := 10
  swr := false

def sampleSurroundings : Surroundings where
  cached := fun _ => .miss
  cachedAgain := fun _ => .miss
  forward := fun _ => none
  queueRoom := true

def sampleQuery (labels : List Bytes) (h : ∀ label ∈ labels, label ≠ []) : WireQuery :=
  ⟨⟨labels, h⟩, .a, 1⟩

def goodQuery : WireQuery := sampleQuery [lit "good", lit "com"] (by decide)

def adsQuery : WireQuery := sampleQuery [lit "ads", lit "com"] (by decide)

def twoQuestions : Message :=
  ((Message.query 1).addQuery goodQuery).addQuery adsQuery

def twoQuestionsPacket : Bytes :=
  [0, 1, 0, 0, 0, 2, 0, 0, 0, 0, 0, 0,
    4, 103, 111, 111, 100, 3, 99, 111, 109, 0, 0, 1, 0, 1,
    3, 97, 100, 115, 3, 99, 111, 109, 0, 0, 1, 0, 1]

def sampleClient : IpAddr := .v4 ⟨192, 168, 1, 7⟩

def sampleBlocklist : List SourceList :=
  [⟨lit "base", lit "||ads.com^", 1⟩]

/-- Only the first question of a message is judged, and the whole message is
forwarded. -/
theorem later_question_forwarded :
    ∃ m, compile 0 1 sampleBlocklist = some m ∧
      let p := samplePipeline [(twoQuestionsPacket, twoQuestions)] m
      ∃ out, p.handle sampleSurroundings twoQuestionsPacket sampleClient .udp = some out ∧
        ∃ q ∈ sent p.lib 0 out.effects, p.Blocked sampleClient.toCanonical q := by
  have hrun : ((compile 0 1 sampleBlocklist).any fun m =>
      let p := samplePipeline [(twoQuestionsPacket, twoQuestions)] m
      !decide (p.Blocked sampleClient.toCanonical goodQuery) &&
        decide (p.Blocked sampleClient.toCanonical adsQuery)) = true := by
    decide +kernel
  obtain ⟨m, hm, hrun⟩ := (Option.any_eq_true _ _).mp hrun
  simp only [Bool.and_eq_true, Bool.not_eq_true', decide_eq_false_iff_not,
    decide_eq_true_eq] at hrun
  have hask : Asks (samplePipeline [(twoQuestionsPacket, twoQuestions)] m).lib
      twoQuestionsPacket twoQuestions goodQuery [adsQuery] :=
    ⟨by simp only [samplePipeline, sampleLibrary, lookup_cons_self], rfl, rfl, rfl⟩
  obtain ⟨out, hout, -, -, hpass⟩ := Pipeline.answer_of_compiled
    (p := samplePipeline [(twoQuestionsPacket, twoQuestions)] m) hm sampleSurroundings
    twoQuestions goodQuery sampleClient.toCanonical (maxUdpPayload twoQuestions)
  refine ⟨m, hm, out, by rw [hask.handle_eq]; exact hout, adsQuery, ?_, hrun.2⟩
  rw [hpass hrun.1]
  exact (sent_forwardRequest _ _ _ _ _).symm ▸ mem_cons_of_mem _ mem_cons_self

theorem forwards_unblocked_iff_sample :
    ∃ m, compile 0 1 sampleBlocklist = some m ∧
      let p := samplePipeline [(twoQuestionsPacket, twoQuestions)] m
      ∃ out, p.handle sampleSurroundings twoQuestionsPacket sampleClient .udp = some out ∧
        ((∀ q ∈ sent p.lib 0 out.effects, ¬ p.Blocked sampleClient.toCanonical q) ↔
          ∀ request query rest, Asks p.lib twoQuestionsPacket request query rest →
            ¬ p.Blocked sampleClient.toCanonical query →
              ∀ q ∈ p.unjudged sampleSurroundings query rest,
                ¬ p.Blocked sampleClient.toCanonical q) := by
  have hrun : (compile 0 1 sampleBlocklist).isSome = true := by decide +kernel
  obtain ⟨m, hm⟩ := Option.isSome_iff_exists.mp hrun
  refine ⟨m, hm, ?_⟩
  exact forwards_unblocked_iff
    (p := samplePipeline [(twoQuestionsPacket, twoQuestions)] m) hm sampleSurroundings
    twoQuestionsPacket sampleClient .udp 0

end FastAdHunter.Dns
