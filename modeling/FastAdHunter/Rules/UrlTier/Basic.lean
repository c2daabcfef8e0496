import FastAdHunter.Lib.Bitmap
import FastAdHunter.Rules.DomainTier.Basic
import FastAdHunter.Rules.UrlTier.Keys
import Mathlib.Data.List.Sort

/-!
# The URL tier: builder and compiled index

Rules for requests keep their pattern and their `$domain=` payload in two byte
arenas, with a fixed record a rule. Building files each rule under the rarest
key its pattern offers, lays the rules of each key out in one run, and puts the
keys in an open-addressing table; rules without a key are scanned on every
lookup. A filter and a set of visited keys keep the sweep of windows cheap.

As in the domain tier, indices are natural numbers, the side maps are
association lists, and `none` is the panic of a limit that is passed.
-/

namespace FastAdHunter.Rules.Url

open Lib Net Probing

def flagAllow : UInt16 := 1
def flagEndAnchored : UInt16 := 2
def flagMatchCase : UInt16 := 4
def flagMethods : UInt16 := 8
def anchorShift : UInt16 := 4
def anchorMask : UInt16 := 0x30
def partyShift : UInt16 := 6
def partyMask : UInt16 := 0xc0
def flagClient : UInt16 := 256

def anchorCode : UrlAnchor → UInt16
  | .domain => 0
  | .start => 1
  | .anywhere => 2

def partyCode : Party → UInt16
  | .any => 0
  | .third => 1
  | .first => 2

/-- One compiled URL rule. A type mask of zero means any type. -/
structure Record where
  patOff : Nat
  domOff : Nat
  patLen : Nat
  domLen : Nat
  types : UInt16
  flags : UInt16
  deriving DecidableEq

namespace Record

def isAllow (r : Record) : Bool := r.flags &&& flagAllow != 0
def endAnchored (r : Record) : Bool := r.flags &&& flagEndAnchored != 0
def matchCase (r : Record) : Bool := r.flags &&& flagMatchCase != 0
def hasMethods (r : Record) : Bool := r.flags &&& flagMethods != 0
def hasClient (r : Record) : Bool := r.flags &&& flagClient != 0

def anchor (r : Record) : UrlAnchor :=
  let code := (r.flags &&& anchorMask) >>> anchorShift
  if code == 0 then .domain else if code == 1 then .start else .anywhere

def party (r : Record) : Party :=
  let code := (r.flags &&& partyMask) >>> partyShift
  if code == 1 then .third else if code == 2 then .first else .any

end Record

def flagsOf (rule : UrlRule) : UInt16 :=
  (if rule.action = .allow then flagAllow else 0) |||
    (if rule.endAnchored then flagEndAnchored else 0) |||
    (if rule.matchCase then flagMatchCase else 0) |||
    (if rule.methods.isSome then flagMethods else 0) |||
    (if rule.client.isSome then flagClient else 0) |||
    (anchorCode rule.anchor <<< anchorShift) ||| (partyCode rule.party <<< partyShift)

/-- The last two labels of a host. -/
def registrable (host : Bytes) : Bytes :=
  match (splitBy (· == ch '.') host).reverse with
  | last :: second :: _ :: _ => second ++ ch '.' :: last
  | _ => host

/-- A request is third-party when it leaves the document's registrable
domain; without a document it is first-party. -/
def isThirdParty (request : HttpRequest) : Bool :=
  request.documentHost.any fun document =>
    !eqIgnoreAsciiCase (registrable document) (registrable request.host)

/-- The host's label suffixes, each tried for the stem and a tail of one or two
labels. -/
def hostUnderAnySuffix (host stem : Bytes) : Bool :=
  !stem.isEmpty &&
    (host :: afterHostDots host.length host).any fun candidate =>
      decide (stem.length < candidate.length) &&
        candidate[stem.length]? == some (ch '.') &&
        eqIgnoreAsciiCase (candidate.take stem.length) stem &&
        (let tail := candidate.drop (stem.length + 1)
         !tail.isEmpty && decide ((tail.filter (· == ch '.')).length < 2))

/-- The entry itself or anything below it; `example.*` stands for the name
under any suffix. -/
def hostUnder (host entry : Bytes) : Bool :=
  match stripSuffix (lit ".*") entry with
  | some stem => hostUnderAnySuffix host stem
  | none =>
    eqIgnoreAsciiCase host entry ||
      (decide (entry.length < host.length) &&
        host[host.length - entry.length - 1]? == some (ch '.') &&
        eqIgnoreAsciiCase (host.drop (host.length - entry.length)) entry)

/-- The outcome of a list of positive and negated entries so far: a veto, or
whether there was a positive entry and whether one was hit. -/
def applyEntry (hit : Bytes → Bool) (acc : Option (Bool × Bool)) (entry : Bytes) :
    Option (Bool × Bool) := do
  let (hasPositive, positiveHit) ← acc
  match stripPrefix [ch '~'] entry with
  | some rest =>
    if !rest.isEmpty && hit rest then none else some (hasPositive, positiveHit)
  | none =>
    if entry.isEmpty then some (hasPositive, positiveHit)
    else some (true, positiveHit || hit entry)

/-- `a|~b`: positive entries are a whitelist, negated ones a veto. -/
def entriesApply (hit : Bytes → Bool) (raw : Bytes) : Bool :=
  match (splitBy (· == ch '|') raw).foldl (applyEntry hit) (some (false, false)) with
  | none => false
  | some (hasPositive, positiveHit) => !hasPositive || positiveHit

def domainsApply (raw : Bytes) (documentHost : Option Bytes) : Bool :=
  entriesApply (fun entry => documentHost.any fun host => hostUnder host entry) raw

def methodsApply (raw method : Bytes) : Bool :=
  entriesApply (fun entry => eqIgnoreAsciiCase method entry) raw

/-- The URL rules under construction. -/
structure UrlIndexBuilder where
  patterns : Bytes
  domains : Bytes
  records : List Record
  listIds : List Nat
  policyMask : List UInt16
  methods : List (Nat × Bytes)
  clients : List (Nat × ClientScope)
  dedup : List (UInt64 × Nat)
  duplicatesRemoved : Nat
  namedClientScopes : Bool

namespace UrlIndexBuilder

def default : UrlIndexBuilder :=
  ⟨[], [], [], [], [], [], [], [], 0, false⟩

def patternOf (b : UrlIndexBuilder) (r : Record) : Bytes :=
  (b.patterns.drop r.patOff).take r.patLen

def domainsOf (b : UrlIndexBuilder) (r : Record) : Bytes :=
  (b.domains.drop r.domOff).take r.domLen

/-- Little-endian bytes of a mask. -/
def leBytes (w : UInt16) : Bytes :=
  [w.toUInt8, (w >>> 8).toUInt8]

def identityHash (pattern domains : Bytes) (flags : UInt16) (rule : UrlRule) : UInt64 :=
  [domains, leBytes flags, leBytes rule.resourceTypes].foldl hashExtend
    (hashKey .exact pattern)

def identityMatches (b : UrlIndexBuilder) (index : Nat) (pattern domains : Bytes)
    (flags : UInt16) (rule : UrlRule) : Bool :=
  (b.records[index]?).any fun r =>
    r.flags == flags && r.types == rule.resourceTypes && b.patternOf r == pattern &&
      b.domainsOf r == domains && b.methods.lookup index == rule.methods &&
      (b.clients.lookup index).map ClientScope.raw == rule.client

/-- Append a rule that is not there yet. -/
def push (b : UrlIndexBuilder) (listId : Nat) (rule : UrlRule) (domains : Bytes)
    (scope : Option ClientScope) (policyMask : UInt16) (identity : UInt64) :
    Option UrlIndexBuilder :=
  if 4294967296 ≤ b.records.length ∨ 4294967296 ≤ b.patterns.length ∨
      4294967296 ≤ b.domains.length then none
  else
    let index := b.records.length
    some
      { b with
        patterns := b.patterns ++ rule.pattern
        domains := b.domains ++ domains
        methods := insertSome index rule.methods b.methods
        namedClientScopes := b.namedClientScopes || scope.any (·.namesAClient)
        clients := insertSome index scope b.clients
        records := b.records ++ [⟨b.patterns.length, b.domains.length,
          rule.pattern.length, domains.length, rule.resourceTypes, flagsOf rule⟩]
        listIds := b.listIds ++ [listId]
        policyMask := b.policyMask ++ [policyMask]
        dedup := b.dedup ++ [(identity, index)] }

/-- The compiled scope of a rule; `none` when its payload has no selector. -/
def compileScope (rule : UrlRule) : Option (Option ClientScope) :=
  match rule.client with
  | none => some none
  | some raw => (ClientScope.parse raw).map some

/-- Add one rule. A pattern or payload that does not fit a record, or a client
payload without a selector, drops the rule; a rule that is already there only
widens its visibility. -/
def add (b : UrlIndexBuilder) (listId : Nat) (rule : UrlRule) (policyMask : UInt16) :
    Option UrlIndexBuilder :=
  let domains := rule.domains.getD []
  if rule.pattern.length = 0 ∨ 65535 < rule.pattern.length ∨ 65535 < domains.length then
    some b
  else
    match compileScope rule with
    | none => some b
    | some scope =>
      let flags := flagsOf rule
      let identity := identityHash rule.pattern domains flags rule
      match b.dedup.find? fun entry => entry.1 == identity &&
          b.identityMatches entry.2 rule.pattern domains flags rule with
      | some (_, index) =>
        some
          { b with
            policyMask := b.policyMask.modify index (· ||| policyMask)
            duplicatesRemoved := b.duplicatesRemoved + 1 }
      | none => b.push listId rule domains scope policyMask identity

end UrlIndexBuilder

end FastAdHunter.Rules.Url
