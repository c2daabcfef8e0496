import FastAdHunter.Http.Proxy

/-!
# Encrypted connections

A connection to the HTTPS port is judged by the name in its greeting and resolved
by that name. It is then either spliced to the approved address as it is, or, for
clients in the scope of interception, terminated here: the origin is reached at the
approved address and its certificate verified before the client is answered. The
requests inside such a session are judged one by one and sent over one sender to
the origin, which is connected again when it turns out to be closed.

A session is opened by the thread that serves the connection; its requests are
threads of their own, since a client can have many of them in flight.
-/

namespace FastAdHunter.Http

open Lib Net Common Rules

lemma isServerName_of_scan (h : Sni.scanClientHello hello = .sni host) :
    IsServerName host := by
  rw [Sni.scanClientHello.eq_def] at h
  split at h
  · cases h
  · split at h
    · cases h
    · dsimp only at h
      split at h
      · next name _ =>
        cases hname : Sni.normalizeHost name with
        | none =>
          rw [hname] at h
          cases h
        | some named =>
          rw [hname] at h
          cases h
          exact ⟨name, hname⟩
      · cases h
      · cases h
      · split at h <;> cases h

lemma isServerName_of_read
    (h : Sni.readClientHello hello chunks = .ok (.sni host)) : IsServerName host := by
  induction chunks generalizing hello with
  | nil =>
    rw [Sni.readClientHello] at h
    split at h <;> cases h
  | cons chunk chunks ih =>
    rw [Sni.readClientHello] at h
    split at h
    · cases h
    · split at h
      · cases h
      · split at h
        · exact ih h
        · exact isServerName_of_scan (Except.ok.inj h)

section Serve

/-- `TlsProxy`: as `Proxy`, for encrypted connections. -/
structure TlsProxy where
  policy : DestinationPolicy
  originPort : UInt16
  allowIpLiteralHosts : Bool
  aligned : policy.originPort = originPort

variable (lib : HttpLibrary) (proxy : TlsProxy)

/-- The verdict on a name, under the ruleset and the policies of the moment. -/
def judgeHost (host : Bytes) (peer : IpAddr) : Prog NetAccess (Option MatchDecision) := do
  match ← NetAccess.matcher with
  | none => pure (some .pass)
  | some m =>
    let active ← NetAccess.policies
    pure (m.lookupHostIn host (m.contextFor peer active))

/-- Resolve the name, then judge what it resolved to, always at the origin port. -/
def TlsProxy.approvedAddress (host : Bytes) : Prog NetAccess (Option SocketAddr) := do
  match ← NetAccess.resolve host with
  | none => pure none
  | some addresses => pure (firstAllowed proxy.policy proxy.originPort none addresses).toOption

/-- Connect to the approved address and verify the certificate for the name. -/
def connectVerifiedUpstream (host : Bytes) (approved : SocketAddr) :
    Prog NetAccess Handshake := do
  if ← NetAccess.serverName host then
    if ← NetAccess.connect approved then NetAccess.handshake host approved
    else pure .failed
  else pure .failed

/-- The authority and the `Host` field that stand for the name itself. -/
def forwardAuthority (host : Bytes) : Option (Bytes × Bytes) :=
  if lib.validAuthority host then some (host, host) else none

variable {lib} in
lemma forwardAuthority_eq
    (h : forwardAuthority lib host = some parts) : parts.1 = host ∧ parts.2 = host := by
  rw [forwardAuthority] at h
  split at h
  · cases h
    exact ⟨rfl, rfl⟩
  · cases h

/-- Where a session goes whose name is usable as an authority. -/
def upstreamOf (host : Bytes) (address : SocketAddr) (named : IsServerName host) :
    Option Upstream :=
  match h : forwardAuthority lib host with
  | none => none
  | some parts =>
    some ⟨host, parts.1, parts.2, address, named, (forwardAuthority_eq h).1,
      (forwardAuthority_eq h).2⟩

/-- Terminate the connection here. The origin is reached and verified first. -/
def intercept (upstream : Upstream) : Prog NetAccess Unit := do
  match ← connectVerifiedUpstream upstream.host upstream.address with
  | .certificate => pure ()
  | .failed => pure ()
  | .verified alpn =>
    if ← NetAccess.prewarm upstream.host then
      if ← NetAccess.accept then
        if ← NetAccess.startHttp alpn then NetAccess.openSession upstream alpn

/-- What becomes of a connection whose destination is approved. -/
def serveApproved (host : Bytes) (named : IsServerName host) (peer : IpAddr)
    (address : SocketAddr) : Prog NetAccess Unit := do
  if ← NetAccess.intercepts peer host then
    match upstreamOf lib host address named with
    | none => pure ()
    | some upstream => intercept upstream
  else
    -- spliced: the greeting and everything after it is copied as it is
    discard (liftM (NetAccess.connect address) : Prog NetAccess Bool)

def serveNamed (host : Bytes) (named : IsServerName host) (peer : IpAddr) :
    Prog NetAccess Unit :=
  if !proxy.allowIpLiteralHosts && (parseIpAddr host).isSome then pure ()
  else do
    match ← judgeHost host peer with
    | none => pure ()
    | some (.block _) => pure ()
    | some _ =>
      match ← proxy.approvedAddress host with
      | none => pure ()
      | some address => serveApproved lib host named peer address

/-- `TlsProxy::serve_connection`, given the pieces in which the greeting arrives. -/
def serveConnection (chunks : List Bytes) (peer : IpAddr) : Prog NetAccess Unit := do
  if ← NetAccess.helloExpires then pure ()
  else
    match h : Sni.readClientHello [] chunks with
    | .ok (.sni host) => serveNamed lib proxy host (isServerName_of_read h) peer
    | .ok .notTls => pure ()
    | .ok .noSni => pure ()
    | .ok .incomplete => pure ()
    | .error _ => pure ()

end Serve

section Intercepted

variable (lib : HttpLibrary) (proxy : TlsProxy)

def sameHost (claimed verified : Bytes) : Bool :=
  eqIgnoreAsciiCase (trimEndMatches (ch '.') claimed) (trimEndMatches (ch '.') verified)

/-- The request as the origin's protocol has it: HTTP/2 states the authority and has
no `Host`, HTTP/1 keeps the field the client sent. -/
def frameFor (request : Request) (alpn : Alpn) (authority hostValue : Bytes) : Request :=
  match alpn with
  | .h2 =>
    { request with
      headers := request.headers.remove hostHeader
      uri := ⟨some authority, some request.uri.pathOrRoot⟩ }
  | .http11 =>
    { request with
      headers :=
        if (request.headers.get hostHeader).isSome then request.headers
        else request.headers.append hostHeader hostValue
      uri := ⟨none, some request.uri.pathOrRoot⟩ }

/-- How one attempt to send a request ended. -/
inductive Attempt where
  | response
  | unsent
  | certificate
  | failed
  deriving DecidableEq

def Exchange.attempt : Exchange → Attempt
  | .response => .response
  | .unsent => .unsent
  | .failed => .failed

variable (session : Nat) (upstream : Upstream) (request : Request)

/-- Send over the sender at hand. An HTTP/1 sender is held until the answer is
there; an HTTP/2 sender is shared. -/
def sendOver (alpn : Alpn) : Prog NetAccess Attempt :=
  let framed := frameFor request alpn upstream.authority upstream.hostHeader
  match alpn with
  | .h2 => do
      NetAccess.unlockSender session
      let ended ← NetAccess.exchange upstream.address alpn framed
      pure ended.attempt
  | .http11 => do
      let ended ← NetAccess.exchange upstream.address alpn framed
      NetAccess.unlockSender session
      pure ended.attempt

/-- Connect to the origin again. -/
def reconnect : Prog NetAccess (Except Attempt Alpn) := do
  match ← connectVerifiedUpstream upstream.host upstream.address with
  | .certificate => pure (.error .certificate)
  | .failed => pure (.error .failed)
  | .verified alpn => do
      if ← NetAccess.startHttp alpn then
        NetAccess.fillSender session alpn
        pure (.ok alpn)
      else pure (.error .failed)

def attempt : Prog NetAccess Attempt := do
  match ← NetAccess.lockSender session with
  | some alpn => sendOver session upstream request alpn
  | none =>
    match ← reconnect session upstream with
    | .ok alpn => sendOver session upstream request alpn
    | .error ended => do
        NetAccess.unlockSender session
        pure ended

/-- Send a request to the origin, once more if it was not sent the first time. -/
def send : Prog NetAccess Attempt := do
  match ← attempt session upstream request with
  | .unsent => attempt session upstream request
  | ended => pure ended

def Attempt.reply : Attempt → Reply
  | .response => .relay
  | .certificate => .refuse Status.upstreamCertFailure
  | .unsent => .refuse Status.badGateway
  | .failed => .refuse Status.badGateway

/-- `TlsProxy::handle_intercepted`. -/
def handleIntercepted (peer : IpAddr) : Prog NetAccess (Option Reply) :=
  match destinationOf lib request proxy.originPort proxy.allowIpLiteralHosts with
  | .error e => pure (some (.refuse e.status))
  | .ok claim => do
      match ← judgeNow lib (lit "https") proxy.originPort request claim peer with
      | none => pure none
      | some (.block _) => pure (some .block)
      | some _ =>
        if !sameHost claim.host upstream.host || claim.port != proxy.originPort then
          pure (some (.refuse Status.misdirectedRequest))
        else do
          let ended ← send session upstream
            { request with headers := appendVia (stripHopByHop lib request.headers) }
          pure (some ended.reply)

/-- A request inside a session. -/
def requestWithin (peer : IpAddr) : Prog NetAccess (Option Reply) := do
  let upstream ← NetAccess.joinSession session
  handleIntercepted lib proxy session upstream request peer

end Intercepted

end FastAdHunter.Http
