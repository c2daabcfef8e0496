import FastAdHunter.Dns.Message
import FastAdHunter.Net.Text

/-!
# Synthesised answers

The replies the pipeline makes up itself: the answer of a blocked question, which
a `$dnsrewrite` payload may replace, the replay of a cached answer, and errors.
Whatever the reply, it carries the id of the request it answers.
-/

namespace FastAdHunter.Dns

open Lib Net Rules

inductive RewriteAddress where
  | v4 (addr : Ipv4Addr)
  | v6 (addr : Ipv6Addr)
  deriving DecidableEq

inductive RewriteOutcome where
  | address (addr : RewriteAddress)
  | code (code : ResponseCode)
  | unhandled
  deriving DecidableEq

def bareCode (raw : Bytes) : Option ResponseCode :=
  if upper raw = lit "NOERROR" then some .noError
  else if upper raw = lit "NXDOMAIN" then some .nxDomain
  else if upper raw = lit "REFUSED" then some .refused
  else none

def parseIpv4 (raw : Bytes) : Option Ipv4Addr :=
  parseWith readIpv4Addr raw

def parseIpv6 (raw : Bytes) : Option Ipv6Addr :=
  parseWith readIpv6Addr raw

/-- A literal of the other family is a defined "no answer for this type". -/
def parseAddress (raw : Bytes) (qtypeIsA qtypeIsAaaa : Bool) : Option RewriteOutcome :=
  match (if qtypeIsA then parseIpv4 raw else none) with
  | some addr => some (.address (.v4 addr))
  | none =>
    match (if qtypeIsAaaa then parseIpv6 raw else none) with
    | some addr => some (.address (.v6 addr))
    | none =>
      if (parseIpv4 raw).isSome || (parseIpv6 raw).isSome then some .unhandled
      else none

/-- The full form `RCODE;TYPE;VALUE`, for an address type. -/
def splitRewrite (raw : Bytes) : Option (Bytes × Bytes) := do
  let (rcode, rest) ← splitOnce (ch ';') raw
  let (rtype, value) ← splitOnce (ch ';') rest
  if eqIgnoreAsciiCase rtype (lit "a") || eqIgnoreAsciiCase rtype (lit "aaaa") then
    some (rcode, value)
  else none

/-- What a `$dnsrewrite` payload means for a question of this type. -/
def interpret (raw : Bytes) (qtypeIsA qtypeIsAaaa : Bool) : RewriteOutcome :=
  let raw := trim raw
  match bareCode raw with
  | some code => .code code
  | none =>
    match parseAddress raw qtypeIsA qtypeIsAaaa with
    | some outcome => outcome
    | none =>
      match splitRewrite raw with
      | none => .unhandled
      | some (rcode, value) =>
        let code :=
          if (trim rcode).isEmpty then some .noError else bareCode (trim rcode)
        if code = some .noError then
          (parseAddress (trim value) qtypeIsA qtypeIsAaaa).getD .unhandled
        else .unhandled

section Replies

/-- The payload of a request without an OPT record. -/
def noEdnsUdpPayload : UInt16 := 512

/-- The upstream's answer as the cache keeps it. -/
structure CachedAnswer where
  records : List Record
  authorities : List Record
  responseCode : ResponseCode
  deriving DecidableEq

/-- An empty reply that mirrors the request. -/
def skeleton (request : Message) (responseCode : ResponseCode) : Message :=
  let reply := Message.response request.metadata.id request.metadata.opCode
  { reply with
    metadata :=
      { reply.metadata with
        responseCode := responseCode
        recursionDesired := request.metadata.recursionDesired
        recursionAvailable := true
        authenticData := false }
    edns := request.edns.map fun edns =>
      ⟨max edns.maxPayload noEdnsUdpPayload, edns.dnssecOk⟩ }

def error (request : Message) (responseCode : ResponseCode) : Message :=
  skeleton request responseCode

/-- The reply with the question and some answers. -/
def answered (request : Message) (query : WireQuery) (responseCode : ResponseCode)
    (answers authorities : List Record) : Message :=
  { (skeleton request responseCode).addQuery query with
    answers := answers
    authorities := authorities }

/-- The answer of a blocked question: its rewrite, else the null address of an
address type, else no data. -/
def blocked (request : Message) (query : WireQuery) (ttl : UInt32)
    (dnsRewrite : Option Bytes) : Message :=
  let isA := query.queryType == RecordType.a
  let isAaaa := query.queryType == RecordType.aaaa
  match dnsRewrite.elim .unhandled fun raw => interpret raw isA isAaaa with
  | .code code => answered request query code [] []
  | .address (.v4 addr) => answered request query .noError [⟨query.name, ttl, .a addr⟩] []
  | .address (.v6 addr) => answered request query .noError [⟨query.name, ttl, .aaaa addr⟩] []
  | .unhandled =>
    if isA then
      answered request query .noError [⟨query.name, ttl, .a ⟨0, 0, 0, 0⟩⟩] []
    else if isAaaa then
      answered request query .noError
        [⟨query.name, ttl, .aaaa ⟨0, 0, 0, 0, 0, 0, 0, 0⟩⟩] []
    else answered request query .noError [] []

def fromCache (request : Message) (query : WireQuery) (answer : CachedAnswer)
    (ttl : UInt32) : Message :=
  answered request query answer.responseCode
    (answer.records.map fun record => { record with ttl := ttl })
    (answer.authorities.map fun record => { record with ttl := ttl })

/-- What a datagram to this client may hold. -/
def maxUdpPayload (request : Message) : UInt16 :=
  request.edns.elim noEdnsUdpPayload fun edns => max edns.maxPayload noEdnsUdpPayload

variable (lib : WireLibrary)

/-- The packet of a message; one that cannot be written becomes a bare
`SERVFAIL`. -/
def encode (message : Message) : Bytes :=
  match lib.toVec message with
  | some bytes => bytes
  | none =>
    let reply := Message.response message.metadata.id message.metadata.opCode
    (lib.toVec
      { reply with metadata := { reply.metadata with responseCode := .servFail } }).getD []

/-- A packet over the budget is sent without its answers. -/
def encodeForTransport (message : Message) (budget : UInt16) : Bytes :=
  let bytes := encode lib message
  if bytes.length ≤ budget.toNat then bytes else encode lib (lib.truncate message)

end Replies

section Mirror

variable (request : Message) (query : WireQuery)

end Mirror

end FastAdHunter.Dns
