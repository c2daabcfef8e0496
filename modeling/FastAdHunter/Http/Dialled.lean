import FastAdHunter.Http.Tls

/-!
# Only approved destinations are reached

A request or a session settles on one socket address, the first that the policy
accepts, and reaches no other: whatever the resolver answers, however often the
client of the library connects, reuses a connection or tries again, and when the
sender of an intercepted session is connected anew.

Between the check and the connection of the plain proxy the address is written into
the request target and parsed again; for the addresses that a proxy forms this is
the identity.
-/

namespace FastAdHunter.Http

open Lib Net Common Rules

section Kinds

def NetAccess.Quiet : {δ : Type} → NetAccess δ → Prop
  | _, .connect _ => False
  | _, .exchange _ _ _ => False
  | _, .handshake _ _ => False
  | _, .openSession _ _ => False
  | _, _ => True

/-- Accesses that reach no origin but the one at this address, send it only requests as
`sent` says, and open no session. -/
def NetAccess.Reaches (address : SocketAddr) (sent : Alpn → Request → Prop) :
    {δ : Type} → NetAccess δ → Prop
  | _, .connect a => a = address
  | _, .exchange a alpn request => a = address ∧ sent alpn request
  | _, .handshake _ a => a = address
  | _, .openSession _ _ => False
  | _, _ => True

/-- Accesses that reach no origin but the one at this address; a session that is opened
goes there as well. -/
def NetAccess.Serves (address : SocketAddr) : {δ : Type} → NetAccess δ → Prop
  | _, .connect a => a = address
  | _, .exchange a _ _ => a = address
  | _, .handshake _ a => a = address
  | _, .openSession upstream _ => upstream.address = address
  | _, _ => True

variable {δ : Type} {op : NetAccess δ} {address : SocketAddr} {sent : Alpn → Request → Prop}
  {l : Label NetAccess Network}

lemma NetAccess.Quiet.reaches (h : op.Quiet)
    (address : SocketAddr) (sent : Alpn → Request → Prop) : op.Reaches address sent := by
  cases op <;> trivial

lemma NetAccess.Reaches.serves (h : op.Reaches address sent) : op.Serves address := by
  cases op with
  | exchange _ _ _ => exact h.1
  | _ => trivial

lemma NetAccess.Reaches.mono (h : op.Reaches address sent)
    (hsent : ∀ alpn request, sent alpn request → sent' alpn request) :
    op.Reaches address sent' := by
  cases op with
  | exchange _ alpn request => exact ⟨h.1, hsent alpn request h.2⟩
  | _ => trivial

/-- The origin that a step reaches. -/
def reached (l : Label NetAccess Network) : Option SocketAddr :=
  match l.access with
  | ⟨_, .connect address⟩ => some address
  | ⟨_, .exchange address _ _⟩ => some address
  | ⟨_, .handshake _ address⟩ => some address
  | _ => none

lemma reached_eq (h : l.access.2.Serves address) (ha : reached l = some a) : a = address := by
  rcases l with ⟨i, ⟨δ, op⟩, b, s, t⟩
  cases op <;> cases ha <;> exact h

lemma reached_of_quiet (h : l.access.2.Quiet) : reached l = none := by
  rcases l with ⟨i, ⟨δ, op⟩, b, s, t⟩
  cases op <;> first | rfl | exact h.elim

lemma not_reaches_of_opens
    (h : l.access = ⟨Unit, .openSession upstream alpn⟩) : ¬ l.access.2.Reaches address sent := by
  rw [h]
  exact id

end Kinds

/-- An address that a proxy forms from a resolved one, and that the policy accepts. -/
structure Approved (policy : DestinationPolicy) (address : SocketAddr) : Prop where
  accepted : policy.check address = .ok ()
  formed : ∃ ip port, address = .new ip port

lemma firstAllowed_cases (h : firstAllowed policy port refusal addresses = .ok address) :
    policy.check address = .ok () ∧ ∃ ip, address = .new ip port := by
  induction addresses generalizing refusal with
  | nil => cases h
  | cons ip rest ih =>
    rw [firstAllowed] at h
    split at h
    · next hcheck =>
      cases h
      exact ⟨hcheck, ip, rfl⟩
    · exact ih h

lemma firstAllowed_approved
    (h : firstAllowed policy port refusal addresses = .ok address) : Approved policy address := by
  obtain ⟨hcheck, ip, hip⟩ := firstAllowed_cases h
  exact ⟨hcheck, ip, port, hip⟩

/-- **The connector reads back what was written.** -/
theorem literalAddress_retarget {ip : IpAddr}
    {port : UInt16} (h : retarget lib uri (.new ip port) = some target) :
    literalAddress target = some (.new ip port) := by
  rw [retarget] at h
  split at h
  · cases h
    have hparse := parseSocketAddr_show (.new ip port)
    rw [literalAddress, Option.bind_some, hparse]
    cases ip <;> rfl
  · cases h

section Plain

variable {lib : HttpLibrary} {address : SocketAddr} {sent : Alpn → Request → Prop}

lemma literalConnector_reaches (h : literalAddress uri = some address) :
    (literalConnector uri).All (NetAccess.Reaches address sent) := by
  rw [literalConnector]
  split
  · trivial
  · next a ha =>
    rw [ha] at h
    cases h
    exact ⟨rfl, fun _ => trivial⟩

lemma openMore_reaches (h : literalAddress uri = some address) :
    (openMore uri).All (NetAccess.Reaches address sent) := by
  refine ⟨trivial, fun wants => ?_⟩
  cases wants with
  | false => trivial
  | true =>
    refine (literalConnector_reaches h).bind fun connection => ?_
    cases connection with
    | none => trivial
    | some connection => exact ⟨trivial, fun _ => trivial⟩

lemma clientRequest_reaches (h : literalAddress request.uri = some address)
    (hsent : sent .http11 request) (attempts : Nat) :
    (clientRequest attempts request).All (NetAccess.Reaches address sent) := by
  induction attempts with
  | zero => trivial
  | succ attempts ih =>
    refine (openMore_reaches h).bind fun _ => ?_
    refine ⟨trivial, fun connection => ?_⟩
    cases connection with
    | none => exact ih
    | some connection =>
      -- a connection is kept under the address it was opened to
      have hsame : connection.address = address := by
        have hopened := connection.opened.symm.trans (parse_poolKey h)
        exact Option.some.inj hopened
      refine ⟨⟨hsame, hsent⟩, fun ended => ?_⟩
      cases ended with
      | response =>
        refine ⟨trivial, fun keeps => ?_⟩
        cases keeps with
        | false => trivial
        | true => exact ⟨trivial, fun _ => trivial⟩
      | unsent => exact ih
      | failed => trivial

lemma forward_reaches (h : Approved policy address)
    (hsent : ∀ upstream, toUpstreamRequest lib request address = some upstream →
      sent .http11 upstream) (attempts : Nat) :
    (forward lib attempts request address).All (NetAccess.Reaches address sent) := by
  obtain ⟨ip, port, rfl⟩ := h.formed
  rw [forward]
  split
  · trivial
  · next upstream hupstream =>
    have hupstream' := hsent upstream hupstream
    obtain ⟨target, htarget, rfl⟩ := Option.map_eq_some_iff.mp hupstream
    exact (clientRequest_reaches (literalAddress_retarget htarget) hupstream' attempts).bind
      fun _ => trivial

lemma judgeNow_quiet (scheme : Bytes) (originPort : UInt16) (request : Request)
    (claim : Destination) (peer : IpAddr) :
    (judgeNow lib scheme originPort request claim peer).All NetAccess.Quiet := by
  refine ⟨trivial, fun m => ?_⟩
  cases m with
  | none => trivial
  | some m => exact ⟨trivial, fun _ => trivial⟩

abbrev SettlesIn (policy : DestinationPolicy) {α : Type} (p : Prog NetAccess α) : Prop :=
  p.Settles (Approved policy) NetAccess.Quiet NetAccess.Serves

lemma approvedAddress_settles (herror : ∀ status, SettlesIn proxy.policy (k (.error status)))
    (hok : ∀ address, Approved proxy.policy address → SettlesIn proxy.policy (k (.ok address))) :
    SettlesIn proxy.policy (approvedAddress proxy claim >>= k) := by
  have hfirst : ∀ addresses, SettlesIn proxy.policy
      (k ((firstAllowed proxy.policy claim.port none addresses).mapError refusalStatus)) := by
    intro addresses
    cases hallowed : firstAllowed proxy.policy claim.port none addresses with
    | error refusal => exact herror _
    | ok address => exact hok address (firstAllowed_approved hallowed)
  rw [approvedAddress]
  split
  · next ip _ => exact hfirst [ip]
  · refine .inl ⟨trivial, fun addresses => ?_⟩
    cases addresses with
    | none => exact herror _
    | some addresses => exact hfirst addresses

/-- **A plain request settles on an approved address.** -/
theorem handle_settles (proxy : Proxy) (attempts : Nat) (request : Request) (peer : IpAddr) :
    SettlesIn proxy.policy (handle lib proxy attempts request peer) := by
  rw [handle]
  split
  · trivial
  · next claim _ =>
    refine .bind (judgeNow_quiet ..) fun verdict => ?_
    cases verdict with
    | none => trivial
    | some decision =>
      cases decision with
      | block _ => trivial
      | _ =>
        refine approvedAddress_settles (fun _ => trivial) fun address happroved => ?_
        have hforward : (forward lib attempts request address).All
            (NetAccess.Reaches address fun _ _ => True) :=
          forward_reaches happroved (fun _ _ => trivial) attempts
        exact .of_all happroved
          ((hforward.mono fun _ h => h.serves).bind fun _ => trivial)

end Plain

section Encrypted

variable {lib : HttpLibrary} {address : SocketAddr} {sent : Alpn → Request → Prop}

lemma connectVerifiedUpstream_reaches (host : Bytes) :
    (connectVerifiedUpstream host address).All (NetAccess.Reaches address sent) := by
  refine ⟨trivial, fun usable => ?_⟩
  cases usable with
  | false => trivial
  | true =>
    refine ⟨rfl, fun opened => ?_⟩
    cases opened with
    | false => trivial
    | true => exact ⟨rfl, fun _ => trivial⟩

lemma intercept_serves (upstream : Upstream) :
    (intercept upstream).All (NetAccess.Serves upstream.address) := by
  have hconnect : (connectVerifiedUpstream upstream.host upstream.address).All
      (NetAccess.Reaches upstream.address fun _ _ => True) :=
    connectVerifiedUpstream_reaches upstream.host
  refine (hconnect.mono fun _ h => h.serves).bind fun handshake => ?_
  cases handshake with
  | certificate => trivial
  | failed => trivial
  | verified alpn =>
    refine ⟨trivial, fun minted => ?_⟩
    cases minted with
    | false => trivial
    | true =>
      refine ⟨trivial, fun accepted => ?_⟩
      cases accepted with
      | false => trivial
      | true =>
        refine ⟨trivial, fun started => ?_⟩
        cases started with
        | false => trivial
        | true => exact ⟨rfl, fun _ => trivial⟩

lemma upstreamOf_address
    (h : upstreamOf lib host address named = some upstream) : upstream.address = address := by
  rw [upstreamOf] at h
  split at h
  · cases h
  · cases h
    rfl

lemma serveApproved_serves (host : Bytes) (named : IsServerName host) (peer : IpAddr) :
    (serveApproved lib host named peer address).All (NetAccess.Serves address) := by
  refine ⟨trivial, fun intercepted => ?_⟩
  cases intercepted with
  | false => exact ⟨rfl, fun _ => trivial⟩
  | true =>
    cases hupstream : upstreamOf lib host address named with
    | none => trivial
    | some upstream =>
      have hserves := intercept_serves upstream
      rw [upstreamOf_address hupstream] at hserves
      exact hserves

lemma judgeHost_quiet (host : Bytes) (peer : IpAddr) :
    (judgeHost host peer).All NetAccess.Quiet := by
  refine ⟨trivial, fun m => ?_⟩
  cases m with
  | none => trivial
  | some m => exact ⟨trivial, fun _ => trivial⟩

lemma TlsProxy.approvedAddress_settles {proxy : TlsProxy} (hnone : SettlesIn proxy.policy (k none))
    (hsome : ∀ address, Approved proxy.policy address → SettlesIn proxy.policy (k (some address))) :
    SettlesIn proxy.policy (proxy.approvedAddress host >>= k) := by
  simp only [TlsProxy.approvedAddress, Prog.lift_bind]
  refine .inl ⟨trivial, fun addresses => ?_⟩
  cases addresses with
  | none => exact hnone
  | some addresses =>
    cases hallowed : firstAllowed proxy.policy proxy.originPort none addresses with
    | error refusal =>
      simp only [hallowed]
      exact hnone
    | ok address =>
      simp only [hallowed]
      exact hsome address (firstAllowed_approved hallowed)

lemma serveNamed_settles (proxy : TlsProxy) (host : Bytes) (named : IsServerName host)
    (peer : IpAddr) : SettlesIn proxy.policy (serveNamed lib proxy host named peer) := by
  rw [serveNamed]
  split
  · trivial
  · refine .bind (judgeHost_quiet host peer) fun verdict => ?_
    cases verdict with
    | none => trivial
    | some decision =>
      cases decision with
      | block _ => trivial
      | _ =>
        refine TlsProxy.approvedAddress_settles trivial fun address happroved => ?_
        exact .of_all happroved (serveApproved_serves host named peer)

/-- **A connection settles on an approved address.** -/
theorem serveConnection_settles (proxy : TlsProxy) (chunks : List Bytes) (peer : IpAddr) :
    SettlesIn proxy.policy (serveConnection lib proxy chunks peer) := by
  simp only [serveConnection, Prog.lift_bind]
  refine .inl ⟨trivial, fun expired => ?_⟩
  cases expired with
  | true => trivial
  | false =>
    dsimp only
    rw [if_neg Bool.false_ne_true]
    split
    · exact serveNamed_settles proxy _ _ peer
    all_goals trivial

end Encrypted

section Intercepted

/-- A request as a session sends it, in the protocol of its sender. -/
def Upstream.Frames (upstream : Upstream) (request : Request) (alpn : Alpn) (framed : Request) :
    Prop :=
  framed = frameFor request alpn upstream.authority upstream.hostHeader

variable {lib : HttpLibrary} (session : Nat) (upstream : Upstream) (request : Request)

lemma sendOver_reaches (alpn : Alpn) : (sendOver session upstream request alpn).All
    (NetAccess.Reaches upstream.address (upstream.Frames request)) := by
  cases alpn with
  | h2 => exact ⟨trivial, fun _ => ⟨⟨rfl, rfl⟩, fun _ => trivial⟩⟩
  | http11 => exact ⟨⟨rfl, rfl⟩, fun _ => ⟨trivial, fun _ => trivial⟩⟩

lemma reconnect_reaches :
    (reconnect session upstream).All (NetAccess.Reaches upstream.address sent) := by
  refine (connectVerifiedUpstream_reaches upstream.host).bind fun handshake => ?_
  cases handshake with
  | certificate => trivial
  | failed => trivial
  | verified alpn =>
    refine ⟨trivial, fun started => ?_⟩
    cases started with
    | false => trivial
    | true => exact ⟨trivial, fun _ => trivial⟩

lemma attempt_reaches : (attempt session upstream request).All
    (NetAccess.Reaches upstream.address (upstream.Frames request)) := by
  refine ⟨trivial, fun live => ?_⟩
  cases live with
  | some alpn => exact sendOver_reaches session upstream request alpn
  | none =>
    refine (reconnect_reaches session upstream).bind fun connected => ?_
    cases connected with
    | ok alpn => exact sendOver_reaches session upstream request alpn
    | error ended => exact ⟨trivial, fun _ => trivial⟩

lemma send_reaches : (send session upstream request).All
    (NetAccess.Reaches upstream.address (upstream.Frames request)) := by
  refine (attempt_reaches session upstream request).bind fun ended => ?_
  cases ended with
  | unsent => exact attempt_reaches session upstream request
  | _ => trivial

/-- What a session sends for a request: the request claims the verified host and the
origin port, and is framed after its hop-by-hop fields are gone. -/
def SentWithin (lib : HttpLibrary) (proxy : TlsProxy) (upstream : Upstream) (request : Request)
    (alpn : Alpn) (framed : Request) : Prop :=
  ∃ claim, destinationOf lib request proxy.originPort proxy.allowIpLiteralHosts = .ok claim ∧
    sameHost claim.host upstream.host = true ∧ claim.port = proxy.originPort ∧
    upstream.Frames { request with headers := appendVia (stripHopByHop lib request.headers) }
      alpn framed

lemma handleIntercepted_reaches (proxy : TlsProxy) (peer : IpAddr) :
    (handleIntercepted lib proxy session upstream request peer).All
      (NetAccess.Reaches upstream.address (SentWithin lib proxy upstream request)) := by
  rw [handleIntercepted]
  split
  · trivial
  · next claim hclaim =>
    refine ((judgeNow_quiet ..).mono fun _ h => h.reaches _ _).bind fun verdict => ?_
    cases verdict with
    | none => trivial
    | some decision =>
      cases decision with
      | block _ => trivial
      | _ =>
        dsimp only
        split
        · trivial
        · next hsame =>
          simp only [Bool.or_eq_true, Bool.not_eq_true', bne_iff_ne, not_or,
            Bool.not_eq_false, not_not] at hsame
          have hsend := send_reaches session upstream
            { request with headers := appendVia (stripHopByHop lib request.headers) }
          refine (hsend.mono fun _ h => h.mono ?_).bind fun _ => trivial
          exact fun alpn framed hframes => ⟨claim, hclaim, hsame.1, hsame.2, hframes⟩

end Intercepted

section Runs

/-- What the proxies are asked to do: handle a plain request, serve an encrypted
connection, or handle a request inside the session that a thread has opened. -/
inductive Task where
  | plain (attempts : Nat) (request : Request) (peer : IpAddr)
  | connection (chunks : List Bytes) (peer : IpAddr)
  | within (session : Nat) (request : Request) (peer : IpAddr)

variable (lib : HttpLibrary) (plain : Proxy) (tls : TlsProxy) (tasks : List Task)

def Task.program : Task → Prog NetAccess (Option Reply)
  | .plain attempts request peer => handle lib plain attempts request peer
  | .connection chunks peer => do
      serveConnection lib tls chunks peer
      pure none
  | .within session request peer => requestWithin lib tls session request peer

/-- The request or the session that a thread works for. -/
def jobOf (i : Nat) : Nat :=
  match tasks[i]? with
  | some (.within session _ _) => session
  | _ => i

/-- The policy that judges the destination of a request or a session. -/
def policyOf (job : Nat) : DestinationPolicy :=
  match tasks[job]? with
  | some (.plain _ _ _) => plain.policy
  | _ => tls.policy

variable {lib plain tls tasks} {labels : List (Label NetAccess Network)}
variable {c' : Pool NetAccess Network (Option Reply)}

def Network.Goes (s : Network) (k : Nat) (upstream : Upstream) : Prop :=
  ∃ session, s.sessions k = some session ∧ session.upstream = upstream

variable {s : Network} {k : Nat} {upstream : Upstream}

lemma Network.goes_setSession (h : (s.setSession j session).Goes k upstream) :
    (j = k ∧ session.upstream = upstream) ∨ s.Goes k upstream := by
  obtain ⟨session', hsession, hupstream⟩ := h
  simp only [Network.setSession] at hsession
  split at hsession
  · next hj =>
    cases hsession
    exact .inl ⟨hj.symm, hupstream⟩
  · exact .inr ⟨session', hsession, hupstream⟩

lemma Network.Goes.of_sender (h : (s.setSession j session').Goes k upstream)
    (hj : s.sessions j = some session) (hsame : session'.upstream = session.upstream) :
    s.Goes k upstream := by
  rcases Network.goes_setSession h with ⟨rfl, hupstream⟩ | h
  · exact ⟨session, hj, hsame.symm.trans hupstream⟩
  · exact h

lemma goes_of_run {b : δ} (hop : network.run op i x s = some (b, t)) (h : t.Goes k upstream) :
    s.Goes k upstream ∨
      (i = k ∧ ∃ alpn, (⟨δ, op⟩ : Σ β, NetAccess β) = ⟨Unit, .openSession upstream alpn⟩) := by
  cases op with
  | openSession u alpn =>
    cases hop
    rcases Network.goes_setSession h with ⟨rfl, rfl⟩ | h
    · exact .inr ⟨rfl, alpn, rfl⟩
    · exact .inl h
  | joinSession j =>
    obtain ⟨session, _, heq⟩ := Option.map_eq_some_iff.mp hop
    cases heq
    exact .inl h
  | lockSender j =>
    obtain ⟨session, hj, hlock⟩ := Option.bind_eq_some_iff.mp hop
    split at hlock
    · cases hlock
      exact .inl (h.of_sender hj rfl)
    · cases hlock
  | fillSender | unlockSender =>
    obtain ⟨session, hj, heq⟩ := Option.map_eq_some_iff.mp hop
    cases heq
    exact .inl (h.of_sender hj rfl)
  | checkout key =>
    have hkept : t.sessions = s.sessions := by
      simp only [network] at hop
      split at hop
      · split at hop <;> cases hop <;> rfl
      · cases hop
        rfl
    obtain ⟨session, hsession, hupstream⟩ := h
    exact .inl ⟨session, hkept ▸ hsession, hupstream⟩
  | _ =>
    cases hop
    exact .inl h

section Jobs

variable (hrun : Pool.Run network ⟨.fresh, tasks.map (Task.program lib plain tls)⟩ labels c')
include hrun

lemma steps_of_task (htask : tasks[i]? = some task) :
    ∃ q, Prog.Steps network i (task.program lib plain tls)
      (labels.filter fun l => l.thread == i) q := by
  obtain ⟨q, _, hsteps⟩ := hrun.steps (i := i) (p := task.program lib plain tls)
    (by simp [htask])
  exact ⟨q, hsteps⟩

lemma reached_within {j k : Nat} {request : Request} {peer : IpAddr}
    (htask : tasks[j]? = some (.within k request peer)) {l : Label NetAccess Network}
    (hl : l ∈ labels) (hj : l.thread = j) :
    (∃ address sent, l.access.2.Reaches address sent) ∧
      ∀ a, reached l = some a → ∃ upstream, upstream.address = a ∧
        ∃ m ∈ labels, m.thread = k ∧ ∃ alpn, m.access = ⟨Unit, .openSession upstream alpn⟩ := by
  obtain ⟨q, hsteps⟩ := steps_of_task hrun htask
  have hmem : l ∈ labels.filter fun l => l.thread == j :=
    List.mem_filter.mpr ⟨hl, by simpa using hj⟩
  have hsub : ∀ m ∈ labels.filter fun l => l.thread == j, m ∈ labels :=
    fun m hm => (List.mem_filter.mp hm).1
  generalize labels.filter (fun l => l.thread == j) = own at hsteps hmem hsub
  change Prog.Steps network j (.act (.joinSession k) fun upstream =>
    handleIntercepted lib tls k upstream request peer) own q at hsteps
  cases hsteps with
  | nil => cases hmem
  | @cons _ _ _ x s t upstream rest _ hjoin hrest =>
    rcases List.mem_cons.mp hmem with rfl | hmem
    · exact ⟨⟨upstream.address, fun _ _ => True, trivial⟩, fun _ ha => (Option.some_ne_none _ ha.symm).elim⟩
    · have hreaches := hrest.all (handleIntercepted_reaches k upstream request tls peer) l hmem
      refine ⟨⟨_, _, hreaches⟩, fun a ha => ⟨upstream, ?_, ?_⟩⟩
      · exact (reached_eq hreaches.serves ha).symm
      · -- the session was there when the request joined it, so it was opened before
        obtain ⟨session, hsession, heq⟩ := Option.map_eq_some_iff.mp hjoin
        cases heq
        exact hrun.cause (H := fun s => s.Goes k session.upstream)
          (C := fun m => m.thread = k ∧
            ∃ alpn, m.access = ⟨Unit, .openSession session.upstream alpn⟩)
          (fun m x hop h => goes_of_run hop h) (by rintro ⟨_, h, _⟩; cases h)
          _ (hsub _ (List.mem_cons_self ..)) ⟨session, hsession, rfl⟩

lemma settles_of_task (htask : tasks[i]? = some task) (hsettles : SettlesIn policy (task.program lib plain tls)) :
    ∃ approved : Option SocketAddr, (∀ a ∈ approved, Approved policy a) ∧
      ∀ l ∈ labels, l.thread = i → l.access.2.Quiet ∨ ∃ a ∈ approved, l.access.2.Serves a := by
  obtain ⟨q, hsteps⟩ := steps_of_task hrun htask
  have hmem : ∀ l ∈ labels, l.thread = i → l ∈ labels.filter fun l => l.thread == i :=
    fun l hl hi => List.mem_filter.mpr ⟨hl, by simpa using hi⟩
  rcases hsettles.steps hsteps with hquiet | ⟨a, happroved, hlabels⟩
  · exact ⟨none, by simp, fun l hl hi => .inl (hquiet l (hmem l hl hi))⟩
  · refine ⟨some a, by simpa using happroved, fun l hl hi => ?_⟩
    exact (hlabels l (hmem l hl hi)).imp_right fun h => ⟨a, rfl, h⟩

lemma thread_settles (job : Nat) :
    ∃ approved : Option SocketAddr, (∀ a ∈ approved, Approved (policyOf plain tls tasks job) a) ∧
      ∀ l ∈ labels, l.thread = job → l.access.2.Quiet ∨ (∃ a ∈ approved, l.access.2.Serves a) ∨
          (∃ k request peer, tasks[job]? = some (.within k request peer)) ∧
            ∃ a sent, l.access.2.Reaches a sent := by
  cases htask : tasks[job]? with
  | none =>
    refine ⟨none, by simp, fun l hl hi => ?_⟩
    have hlt : l.thread < tasks.length := by simpa using hrun.thread_lt l hl
    rw [hi] at hlt
    exact absurd (List.getElem?_eq_none_iff.mp htask) (Nat.not_le.mpr hlt)
  | some task =>
    cases task with
    | plain attempts request peer =>
      obtain ⟨approved, hok, hown⟩ :=
        settles_of_task hrun htask (handle_settles plain attempts request peer)
      refine ⟨approved, by simpa [policyOf, htask] using hok, fun l hl hi => ?_⟩
      exact (hown l hl hi).imp_right .inl
    | connection chunks peer =>
      obtain ⟨approved, hok, hown⟩ :=
        settles_of_task hrun htask
          (Prog.Settles.map (serveConnection_settles tls chunks peer) fun _ => none)
      refine ⟨approved, by simpa [policyOf, htask] using hok, fun l hl hi => ?_⟩
      exact (hown l hl hi).imp_right .inl
    | within k request peer =>
      refine ⟨none, by simp, fun l hl hi => ?_⟩
      exact .inr (.inr ⟨⟨k, request, peer, rfl⟩, (reached_within hrun htask hl hi).1⟩)

end Jobs

/-- **Only approved destinations are reached.** Whatever the resolver and the rest of
the network do, and however the threads interleave: all that one request, or one
session with the requests inside it, reaches is a single address, which the policy
has accepted. And for the addresses that a proxy forms, the target that is written
for the connector is read back as the address. -/
theorem connections_approved
    (hrun : Pool.Run network ⟨.fresh, tasks.map (Task.program lib plain tls)⟩ labels c') :
    (∀ job, ∃ approved : Option SocketAddr,
      (∀ a ∈ approved, Approved (policyOf plain tls tasks job) a) ∧
        ∀ l ∈ labels, jobOf tasks l.thread = job → ∀ a ∈ reached l, approved = some a) ∧
      ∀ uri ip port, lib.validAuthority (showSocketAddr (.new ip port)) = true →
        (retarget lib uri (.new ip port)).bind literalAddress = some (.new ip port) := by
  constructor
  · intro job
    obtain ⟨approved, hok, hown⟩ := thread_settles hrun job
    refine ⟨approved, hok, fun l hl hjob a ha => ?_⟩
    rw [jobOf] at hjob
    split at hjob
    · next k request peer htask =>
      subst hjob
      -- the session of the request was opened by the thread of the job
      obtain ⟨upstream, rfl, m, hm, hthread, alpn, hopen⟩ :=
        (reached_within hrun htask hl rfl).2 a ha
      rcases hown m hm hthread with hquiet | ⟨a, happroved, hserves⟩ | ⟨-, a, sent, hreaches⟩
      · exact absurd (hquiet.reaches upstream.address fun _ _ => True) (not_reaches_of_opens hopen)
      · rw [hopen] at hserves
        rw [happroved, show upstream.address = a from hserves]
      · exact absurd hreaches (not_reaches_of_opens hopen)
    · next hnot =>
      rcases hown l hl hjob with hquiet | ⟨b, happroved, hserves⟩ | ⟨⟨k, request, peer, htask⟩, -⟩
      · rw [reached_of_quiet hquiet] at ha
        cases ha
      · rw [happroved, reached_eq hserves ha]
      · exact absurd (hjob ▸ htask) (hnot k request peer)
  · intro uri ip port hvalid
    cases htarget : retarget lib uri (.new ip port) with
    | none => simp [retarget, hvalid] at htarget
    | some target => exact literalAddress_retarget htarget

/-- A plain proxy for port 80 and an encrypted one for port 443. -/
def sampleProxy : Proxy := ⟨⟨80, []⟩, 80, false, rfl⟩
def sampleTlsProxy : TlsProxy := ⟨⟨443, []⟩, 443, false, rfl⟩

def sampleOrigin : IpAddr := .v4 ⟨93, 184, 216, 34⟩
def plainTask : Task := .plain 1 (requestFor (lit "example.com")) samplePeer

/-- The environment of the sample runs: no rules, and a resolver with two addresses, of
which the first is refused. -/
def sampleEnv : Env where
  policies := noPolicies
  addresses := some [.v4 ⟨10, 0, 0, 1⟩, sampleOrigin]

/-- The steps of one request: the verdict, the resolution, a connection and the exchange. -/
def sampleSchedule : List (Nat × Env) :=
  List.replicate 8 (0, sampleEnv)

theorem connections_approved_sample :
    ∃ labels c', Pool.Run network
        ⟨.fresh, [plainTask].map (Task.program sampleLibrary sampleProxy sampleTlsProxy)⟩
        labels c' ∧ (∃ l ∈ labels, reached l = some (.new sampleOrigin 80)) ∧
      ∃ approved, (∀ a ∈ approved, Approved sampleProxy.policy a) ∧
        ∀ l ∈ labels, jobOf [plainTask] l.thread = 0 → ∀ a ∈ reached l, approved = some a := by
  refine Pool.exists_run sampleSchedule
    (fun labels _ => ∃ l ∈ labels, reached l = some (.new sampleOrigin 80)) (by decide +kernel) ?_
  exact fun labels c hrun hreached => ⟨hreached, (connections_approved hrun).1 0⟩

end Runs

end FastAdHunter.Http
