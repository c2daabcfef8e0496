import FastAdHunter.Lib.Prog
import FastAdHunter.Common.Egress
import FastAdHunter.Http.Judge
import FastAdHunter.Http.Sni

/-!
# Forwarding plain requests

What the proxies do with the network is a sequence of accesses: they resolve
names, open connections, keep them for later and exchange requests over them.
Everything the other side decides is a choice of the environment, so a resolver
can answer differently on every call. This file has the accesses of both proxies
and the plain one; the verdict is taken before any name is resolved.

The pooled client of the HTTP library is modelled as it documents itself: it keeps
connections by the authority they were opened for, opens new ones only through the
connector it was given, and sends a request again only when it was not sent.
-/

namespace FastAdHunter.Http

open Lib Net Common Rules

/-- The protocol agreed on with an origin. -/
inductive Alpn where
  | h2
  | http11
  deriving DecidableEq

/-- How sending a request over a connection ended. -/
inductive Exchange where
  | response
  | unsent
  | failed
  deriving DecidableEq

/-- How a handshake with an origin ended. -/
inductive Handshake where
  | verified (alpn : Alpn)
  | certificate
  | failed
  deriving DecidableEq

/-- A name as the scan of a greeting returns it. -/
def IsServerName (host : Bytes) : Prop :=
  ∃ raw, Sni.normalizeHost raw = some host

/-- Where the requests of one intercepted session go. What the origin is told by
itself is the name in the greeting. -/
structure Upstream where
  host : Bytes
  authority : Bytes
  hostHeader : Bytes
  address : SocketAddr
  named : IsServerName host
  authority_eq : authority = host
  hostHeader_eq : hostHeader = host

/-- A connection that the client keeps under a key: it was opened to the address that
the key is. -/
structure Pooled (key : Bytes) where
  address : SocketAddr
  opened : parseSocketAddr key = some address

inductive NetAccess : Type → Type
  | matcher : NetAccess (Option Matcher)
  | policies : NetAccess ActivePolicies
  | resolve (host : Bytes) : NetAccess (Option (List IpAddr))
  | connect (address : SocketAddr) : NetAccess Bool
  | exchange (address : SocketAddr) (alpn : Alpn) (request : Request) : NetAccess Exchange
  -- the pooled client
  | chooses : NetAccess Bool
  | checkin (key : Bytes) (connection : Pooled key) : NetAccess Unit
  | checkout (key : Bytes) : NetAccess (Option (Pooled key))
  -- greetings and handshakes
  | helloExpires : NetAccess Bool
  | intercepts (peer : IpAddr) (host : Bytes) : NetAccess Bool
  | serverName (host : Bytes) : NetAccess Bool
  | handshake (host : Bytes) (address : SocketAddr) : NetAccess Handshake
  | prewarm (host : Bytes) : NetAccess Bool
  | accept : NetAccess Bool
  | startHttp (alpn : Alpn) : NetAccess Bool
  -- intercepted sessions, by the thread that opened them
  | openSession (upstream : Upstream) (alpn : Alpn) : NetAccess Unit
  | joinSession (session : Nat) : NetAccess Upstream
  | lockSender (session : Nat) : NetAccess (Option Alpn)
  | fillSender (session : Nat) (alpn : Alpn) : NetAccess Unit
  | unlockSender (session : Nat) : NetAccess Unit

/-- An intercepted session: its sender to the origin, and who holds it. -/
structure Session where
  upstream : Upstream
  sender : Option Alpn
  holder : Option Nat

/-- Idle connections by their key, and the sessions by the thread that opened
them. -/
structure Network where
  idle : List (Σ key, Pooled key)
  sessions : Nat → Option Session

def Network.fresh : Network where
  idle := []
  sessions _ := none

def Network.setSession (s : Network) (k : Nat) (session : Session) : Network :=
  { s with sessions := fun j => if j = k then some session else s.sessions j }

/-- What the environment decides at one step. -/
structure Env where
  matcher : Option Matcher := none
  policies : ActivePolicies
  addresses : Option (List IpAddr) := none
  yes : Bool := true
  exchange : Exchange := .response
  handshake : Handshake := .failed
  pick : Nat := 0

def network : Machine NetAccess Network Env where
  run op i x s :=
    match op with
    | .matcher => some (x.matcher, s)
    | .policies => some (x.policies, s)
    | .resolve _ => some (x.addresses, s)
    | .connect _ => some (x.yes, s)
    | .exchange _ _ _ => some (x.exchange, s)
    | .chooses => some (x.yes, s)
    | .checkin key connection => some ((), { s with idle := ⟨key, connection⟩ :: s.idle })
    | .checkout key =>
      match s.idle[x.pick]? with
      | some ⟨k, connection⟩ =>
        if h : k = key then some (some (h ▸ connection), { s with idle := s.idle.eraseIdx x.pick })
        else some (none, s)
      | none => some (none, s)
    | .helloExpires => some (x.yes, s)
    | .intercepts _ _ => some (x.yes, s)
    | .serverName _ => some (x.yes, s)
    | .handshake _ _ => some (x.handshake, s)
    | .prewarm _ => some (x.yes, s)
    | .accept => some (x.yes, s)
    | .startHttp _ => some (x.yes, s)
    | .openSession upstream alpn => some ((), s.setSession i ⟨upstream, some alpn, none⟩)
    -- a request of a session waits until the session is open
    | .joinSession k => (s.sessions k).map fun session => (session.upstream, s)
    | .lockSender k =>
      (s.sessions k).bind fun session =>
        if session.holder = none then
          -- a sender can turn out to be closed
          some (if x.yes then session.sender else none,
            s.setSession k { session with holder := some i })
        else none
    | .fillSender k alpn =>
      (s.sessions k).map fun session => ((), s.setSession k { session with sender := some alpn })
    | .unlockSender k =>
      (s.sessions k).map fun session => ((), s.setSession k { session with holder := none })

section Headers

def connectionHeader : Bytes := lit "connection"
def viaHeader : Bytes := lit "via"
def viaValue : Bytes := lit "1.1 fastadhunter"

/-- Fields that belong to one connection. -/
def hopByHop : List Bytes :=
  [connectionHeader, lit "te", lit "trailer", lit "transfer-encoding", lit "upgrade",
    lit "keep-alive", lit "proxy-authenticate", lit "proxy-authorization"]

variable (lib : HttpLibrary)

/-- The fields that `Connection` names. -/
def namedByConnection (headers : HeaderMap) : List Bytes :=
  let values := (headers.getAll connectionHeader).filterMap lib.headerText
  (values.flatMap (splitBy (· == ch ','))).filterMap fun token => lib.headerName (trim token)

def stripHopByHop (headers : HeaderMap) : HeaderMap :=
  hopByHop.foldl HeaderMap.remove ((namedByConnection lib headers).foldl HeaderMap.remove headers)

def appendVia (headers : HeaderMap) : HeaderMap :=
  headers.append viaHeader viaValue

/-- The request as it is handed to the client, aimed at the approved address. The
`Host` field stays as the client wrote it. -/
def toUpstreamRequest (request : Request) (address : SocketAddr) : Option Request :=
  (retarget lib request.uri address).map fun uri =>
    { request with uri := uri, headers := appendVia (stripHopByHop lib request.headers) }

end Headers

/-- The first of the addresses that the policy allows, or why the last one was
refused. -/
def firstAllowed (policy : DestinationPolicy) (port : UInt16) :
    Option Refusal → List IpAddr → Except (Option Refusal) SocketAddr
  | refusal, [] => .error refusal
  | _, ip :: rest =>
    match policy.check (.new ip port) with
    | .ok () => .ok (.new ip port)
    | .error reason => firstAllowed policy port (some reason) rest

/-- `Proxy`: which destinations it may reach, and the port it stands in for. Both
are set from one constant. -/
structure Proxy where
  policy : DestinationPolicy
  originPort : UInt16
  allowIpLiteralHosts : Bool
  aligned : policy.originPort = originPort

namespace Status

def badRequest : Nat := 400
def forbidden : Nat := 403
def misdirectedRequest : Nat := 421
def badGateway : Nat := 502
def upstreamCertFailure : Nat := 526

end Status

/-- The status of a destination that was not approved: an empty answer is a failed
resolution, not a refusal. -/
def refusalStatus : Option Refusal → Nat
  | some _ => Status.forbidden
  | none => Status.badGateway

def ClaimError.status : ClaimError → Nat
  | .ipLiteral => Status.forbidden
  | _ => Status.badRequest

/-- Resolve the claim, then judge what it resolved to. -/
def approvedAddress (proxy : Proxy) (claim : Destination) :
    Prog NetAccess (Except Nat SocketAddr) :=
  match parseIpAddr claim.host with
  | some ip => pure ((firstAllowed proxy.policy claim.port none [ip]).mapError refusalStatus)
  | none => do
      match ← NetAccess.resolve claim.host with
      | none => pure (.error Status.badGateway)
      | some addresses =>
        pure ((firstAllowed proxy.policy claim.port none addresses).mapError refusalStatus)

/-- `LiteralConnector`: the authority is parsed, never resolved. -/
def literalAddress (uri : Uri) : Option SocketAddr :=
  uri.authority.bind parseSocketAddr

/-- The connections of the client are kept by authority. -/
def poolKey (uri : Uri) : Bytes :=
  uri.authority.getD []

lemma parse_poolKey (h : literalAddress uri = some address) :
    parseSocketAddr (poolKey uri) = some address := by
  obtain ⟨text, htext, hparse⟩ := Option.bind_eq_some_iff.mp h
  rwa [poolKey, htext]

/-- Open a connection to the address in the target. -/
def literalConnector (uri : Uri) : Prog NetAccess (Option (Pooled (poolKey uri))) :=
  match h : literalAddress uri with
  | none => pure none
  | some address => do
      let opened ← NetAccess.connect address
      pure (if opened then some ⟨address, parse_poolKey h⟩ else none)

/-- The client opens a connection when it sees fit. -/
def openMore (uri : Uri) : Prog NetAccess Unit := do
  if ← NetAccess.chooses then
    match ← literalConnector uri with
    | none => pure ()
    | some connection => NetAccess.checkin (poolKey uri) connection

/-- The pooled client, for so many attempts. Whether it opens a connection, and
whether it keeps one after a response, is its own choice; it sends again only what
was not sent. -/
def clientRequest : Nat → Request → Prog NetAccess Bool
  | 0, _ => pure false
  | attempts + 1, request => do
      openMore request.uri
      match ← NetAccess.checkout (poolKey request.uri) with
      | none => clientRequest attempts request
      | some connection =>
        match ← NetAccess.exchange connection.address .http11 request with
        | .response => do
            if ← NetAccess.chooses then NetAccess.checkin (poolKey request.uri) connection
            pure true
        | .unsent => clientRequest attempts request
        | .failed => pure false

section Handle

/-- What the client of the proxy is answered. -/
inductive Reply where
  | refuse (status : Nat)
  | block
  | relay
  deriving DecidableEq

variable (lib : HttpLibrary)

/-- The verdict on a request, under the ruleset and the policies of the moment. -/
def judgeNow (scheme : Bytes) (originPort : UInt16) (request : Request) (claim : Destination)
    (peer : IpAddr) : Prog NetAccess (Option MatchDecision) := do
  match ← NetAccess.matcher with
  | none => pure (some .pass)
  | some m =>
    let active ← NetAccess.policies
    pure (judge lib (some m) active scheme originPort request claim peer)

/-- Send an approved request on. -/
def forward (attempts : Nat) (request : Request) (address : SocketAddr) : Prog NetAccess Reply :=
  match toUpstreamRequest lib request address with
  | none => pure (.refuse Status.badRequest)
  | some upstream => do
      let answered ← clientRequest attempts upstream
      pure (if answered then .relay else .refuse Status.badGateway)

/-- `Proxy::handle`; nothing comes back when the lookup panics. -/
def handle (proxy : Proxy) (attempts : Nat) (request : Request) (peer : IpAddr) :
    Prog NetAccess (Option Reply) :=
  match destinationOf lib request proxy.originPort proxy.allowIpLiteralHosts with
  | .error e => pure (some (.refuse e.status))
  | .ok claim => do
      match ← judgeNow lib (lit "http") proxy.originPort request claim peer with
      | none => pure none
      | some (.block _) => pure (some .block)
      | some _ =>
        match ← approvedAddress proxy claim with
        | .error status => pure (some (.refuse status))
        | .ok address =>
          let reply ← forward lib attempts request address
          pure (some reply)

end Handle

end FastAdHunter.Http
