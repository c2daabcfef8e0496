import FastAdHunter.Net.Text
import FastAdHunter.Rules.Types

/-!
# Client selectors and scopes

`$client=a|~b` names the clients a rule applies to: addresses, networks, or
user-assigned names. A payload that holds no selector, or one that does not
parse, has no scope at all, and the rule that carries it is dropped.
-/

namespace FastAdHunter.Rules

open Lib Net

inductive ClientSelector where
  | ip (addr : IpAddr)
  | network (address : IpAddr) (prefixLen : Nat)
  | name (name : Bytes)
  deriving DecidableEq

/-- Whole bytes first, then the remaining bits of one byte. -/
def covered (network candidate : Bytes) (prefixLen : Nat) : Bool :=
  if network.length * 8 < prefixLen then false
  else
    let whole := prefixLen / 8
    if network.take whole != candidate.take whole then false
    else
      let bits := prefixLen % 8
      if bits = 0 then true
      else
        let mask : UInt8 := 0xff <<< UInt8.ofNat (8 - bits)
        network.getD whole 0 &&& mask == candidate.getD whole 0 &&& mask

def networkContains (address : IpAddr) (prefixLen : Nat) (ip : IpAddr) : Bool :=
  match address, ip with
  | .v4 network, .v4 candidate =>
    covered network.octets candidate.octets prefixLen
  | .v6 network, .v6 candidate =>
    covered network.octets candidate.octets prefixLen
  -- mixed families never match
  | _, _ => false

def ClientSelector.matches (selector : ClientSelector) (ip : IpAddr)
    (clientName : Option Bytes) : Bool :=
  match selector with
  | .ip wanted => wanted == ip
  | .network address prefixLen => networkContains address prefixLen ip
  | .name wanted => clientName.any fun name => eqIgnoreAsciiCase name wanted

/-- An address, an address with a prefix length, or a name. A slash commits
the text to being a prefix. -/
def parseSelector (spec : Bytes) : Option ClientSelector :=
  let spec := trim spec
  if spec.isEmpty then none
  else
    match splitOnce (ch '/') spec with
    | some (address, len) => do
        let address ← parseIpAddr address
        let prefixLen ← parseUnsigned 256 len
        if address.bits < prefixLen then none
        else some (.network address prefixLen)
    | none =>
      match parseIpAddr spec with
      | some address => some (.ip address)
      | none => some (.name spec)

structure ScopeTerm where
  negated : Bool
  selector : ClientSelector
  deriving DecidableEq

/-- A compiled `$client` payload, with the payload as written. -/
structure ClientScope where
  raw : Bytes
  terms : List ScopeTerm
  hasPositive : Bool
  deriving DecidableEq

/-- One term between bars: nothing for an empty one, an error for one that is
no selector. -/
def parseTerm (term : Bytes) : Option (Option ScopeTerm) :=
  let term := trim term
  if term.isEmpty then some none
  else
    let (negated, spec) :=
      match stripPrefix [ch '~'] term with
      | some rest => (true, rest)
      | none => (false, term)
    (parseSelector spec).map fun selector => some ⟨negated, selector⟩

/-- The terms of a payload in order. -/
def parseTerms : List Bytes → Option (List ScopeTerm)
  | [] => some []
  | piece :: pieces => do
      let term ← parseTerm piece
      let terms ← parseTerms pieces
      return term.toList ++ terms

def ClientScope.parse (raw : Bytes) : Option ClientScope := do
  let terms ← parseTerms (splitBy (· == ch '|') raw)
  if terms.isEmpty then none
  else some ⟨raw, terms, terms.any (!·.negated)⟩

def unspecifiedIp : IpAddr := .v4 ⟨0, 0, 0, 0⟩

/-- Whether a term names the client. Without an address only names can match. -/
def ScopeTerm.matches (term : ScopeTerm) (ip : Option IpAddr) (name : Option Bytes) : Bool :=
  ip.any (fun ip => term.selector.matches ip name) ||
    (ip.isNone && (match term.selector with
      | .name _ => true
      | _ => false) && term.selector.matches unspecifiedIp name)

/-- Whether a rule so scoped applies to this client. -/
def ClientScope.admits (scope : ClientScope) (ip : Option IpAddr) (name : Option Bytes) : Bool :=
  if scope.terms.any (fun term => term.negated && term.matches ip name) then false
  else if !scope.hasPositive then true
  else scope.terms.any (fun term => !term.negated && term.matches ip name)

def ClientScope.namesAClient (scope : ClientScope) : Bool :=
  scope.terms.any fun term =>
    match term.selector with
    | .name _ => true
    | _ => false

@[simp] lemma ClientScope.raw_of_parse {raw : Bytes}
    (h : ClientScope.parse raw = some scope) : scope.raw = raw := by
  simp only [ClientScope.parse, Option.bind_eq_bind, Option.bind_eq_some_iff] at h
  obtain ⟨terms, -, h⟩ := h
  split at h
  · cases h
  · exact (Option.some.inj h) ▸ rfl

end FastAdHunter.Rules
