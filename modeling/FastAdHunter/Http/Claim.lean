import FastAdHunter.Http.Message

/-!
# The destination a request claims

After the router's address translation the only statement of where a client was
going is the `Host` field, or the authority of an absolute target. Both are read
here, and must agree when both are there; whether the proxy may connect is not
decided here.
-/

namespace FastAdHunter.Http

open Lib Net

section Claim

/-- Why a stated destination was refused before any resolution. -/
inductive ClaimError where
  | missing
  | duplicated
  | malformed
  | ipLiteral
  deriving DecidableEq

structure Destination where
  host : Bytes
  port : UInt16
  deriving DecidableEq

/-- Whether two authorities name the same place. -/
def sameDestination (a b : Bytes) (defaultPort : UInt16) : Bool :=
  eqIgnoreAsciiCase (authorityHost a) (authorityHost b) &&
    (authorityPort a).getD defaultPort == (authorityPort b).getD defaultPort

variable (lib : HttpLibrary)

/-- The single `Host` field, read as an authority. -/
def hostAuthority (request : Request) : Except ClaimError (Option Bytes) :=
  match request.headers.getAll hostHeader with
  | [] => .ok none
  | [value] =>
    match lib.headerText value with
    | none => .error .malformed
    | some text => if lib.validAuthority text then .ok (some text) else .error .malformed
  | _ => .error .duplicated

/-- The authority of the target when it has one, else the `Host` field. -/
def authorityOf (request : Request) (defaultPort : UInt16) : Except ClaimError Bytes := do
  let header ← hostAuthority lib request
  match request.uri.authority, header with
  | some fromUri, some fromHeader =>
    if sameDestination fromUri fromHeader defaultPort then .ok fromUri
    else .error .malformed
  | some fromUri, none => .ok fromUri
  | none, some fromHeader => .ok fromHeader
  | none, none => .error .missing

/-- A host without the brackets of an address literal. -/
def unbracket (host : Bytes) : Bytes :=
  trimEndMatches (ch ']') (trimStartMatches (ch '[') host)

def destinationAt (authority : Bytes) (defaultPort : UInt16) (allowIpLiterals : Bool) :
    Except ClaimError Destination :=
  let host := authorityHost authority
  if host.isEmpty then .error .malformed
  else
    let host := unbracket host
    if !allowIpLiterals && (parseIpAddr host).isSome then .error .ipLiteral
    else .ok ⟨host, (authorityPort authority).getD defaultPort⟩

def destinationOf (request : Request) (defaultPort : UInt16) (allowIpLiterals : Bool) :
    Except ClaimError Destination := do
  let authority ← authorityOf lib request defaultPort
  destinationAt authority defaultPort allowIpLiterals

/-- Aim the target at one approved address; `none` when the library refuses to
build it. The header fields are not touched. -/
def retarget (uri : Uri) (address : SocketAddr) : Option Uri :=
  let authority := showSocketAddr address
  if lib.validAuthority authority then some ⟨some authority, some uri.pathOrRoot⟩ else none

end Claim

section Reading

variable {lib : HttpLibrary} {request : Request} {defaultPort : UInt16}

lemma destinationOf_cases (h : destinationOf lib request defaultPort allowIpLiterals = .ok claim) :
    ∃ authority, authorityOf lib request defaultPort = .ok authority ∧
      claim.host = unbracket (authorityHost authority) ∧
      claim.port = (authorityPort authority).getD defaultPort := by
  rw [destinationOf] at h
  cases hauth : authorityOf lib request defaultPort with
  | error e =>
    rw [hauth] at h
    cases h
  | ok authority =>
    rw [hauth] at h
    simp only [bind, Except.bind, destinationAt] at h
    split at h
    · cases h
    · split at h
      · cases h
      · cases h
        exact ⟨authority, rfl, rfl, rfl⟩

end Reading

end FastAdHunter.Http
