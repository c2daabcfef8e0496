import FastAdHunter.Lib.Bytes
import FastAdHunter.Net.Addr

/-!
# The vocabulary of the rule engine

Questions and requests as the engine sees them, parsed rules of the two tiers,
and the result of parsing one list. Text is kept as the bytes of its UTF-8
form; a shared string of the source is plain data here.
-/

namespace FastAdHunter.Rules

open Lib Net

/-- The record type of a DNS question. -/
inductive QueryType where
  | a | aaaa | https | svcb | cname | mx | txt | ns | ptr | srv | soa | caa
  | ds | dnskey | naptr
  | other (code : UInt16)
  deriving DecidableEq

/-- What an HTTP request is fetching. -/
inductive ResourceType where
  | document | subdocument | script | stylesheet | image | font | media
  | xmlHttpRequest | webSocket | ping | object | other
  | unknown
  deriving DecidableEq

/-- One HTTP request as the rule engine sees it. -/
structure HttpRequest where
  url : Bytes
  host : Bytes
  method : Bytes
  resourceType : ResourceType
  documentHost : Option Bytes
  deriving DecidableEq

inductive RuleAction where
  | block
  | allow
  deriving DecidableEq

/-- The options a domain rule may carry, as written. -/
structure DomainOpts where
  dnsTypes : Option Bytes
  dnsRewrite : Option Bytes
  client : Option Bytes
  deriving DecidableEq

/-- `None` when no option is set. -/
def DomainOpts.boxed (opts : DomainOpts) : Option DomainOpts :=
  if opts.dnsTypes.isNone && opts.dnsRewrite.isNone && opts.client.isNone then
    none
  else
    some opts

structure DomainRule where
  domain : Bytes
  action : RuleAction
  includeSubdomains : Bool
  opts : Option DomainOpts
  deriving DecidableEq

namespace DomainRule

def plain (domain : Bytes) (action : RuleAction) (includeSubdomains : Bool) :
    DomainRule :=
  ⟨domain, action, includeSubdomains, none⟩

def dnsTypes (rule : DomainRule) : Option Bytes :=
  rule.opts.bind (·.dnsTypes)

def dnsRewrite (rule : DomainRule) : Option Bytes :=
  rule.opts.bind (·.dnsRewrite)

def client (rule : DomainRule) : Option Bytes :=
  rule.opts.bind (·.client)

end DomainRule

/-- Where a URL pattern is anchored. -/
inductive UrlAnchor where
  | domain
  | start
  | anywhere
  deriving DecidableEq

/-- Which party a rule applies to. -/
inductive Party where
  | any
  | third
  | first
  deriving DecidableEq

/-- A rule of the URL tier. A resource mask of zero means any type. -/
structure UrlRule where
  pattern : Bytes
  action : RuleAction
  anchor : UrlAnchor
  endAnchored : Bool
  matchCase : Bool
  party : Party
  resourceTypes : UInt16
  domains : Option Bytes
  methods : Option Bytes
  client : Option Bytes
  deriving DecidableEq

inductive InactiveReason where
  | cosmetic
  | unsupported
  deriving DecidableEq

/-- The tier that answers a rule, or why none does. -/
inductive RuleKind where
  | active (rule : DomainRule)
  | url (rule : UrlRule)
  | inactive (reason : InactiveReason)
  deriving DecidableEq

inductive RuleFormat where
  | hosts
  | plainDomainList
  | adblock
  deriving DecidableEq

/-- Every rule of one list, with the number of failed lines and the first of
their numbers. -/
structure ParsedRuleList where
  format : RuleFormat
  rules : List RuleKind
  parseErrors : Nat
  parseErrorLines : List Nat
  deriving DecidableEq

structure ParseErrorLog where
  count : Nat
  lines : List Nat
  deriving DecidableEq

def maxReportedErrorLines : Nat := 100

def ParseErrorLog.empty : ParseErrorLog := ⟨0, []⟩

/-- Record a failure at a line index from zero; lines are reported from one. -/
def ParseErrorLog.record (log : ParseErrorLog) (lineIndex : Nat) : ParseErrorLog :=
  { count := log.count + 1
    lines :=
      if log.lines.length < maxReportedErrorLines then log.lines ++ [lineIndex + 1]
      else log.lines }

/-- Which policy a request is judged under: a bit position. -/
structure PolicyId where
  index : UInt8
  deriving DecidableEq

def PolicyId.bit (id : PolicyId) : UInt16 :=
  1 <<< id.index.toUInt16

/-- Who is asking, and under which policy. -/
structure ClientContext where
  policy : PolicyId
  ip : Option IpAddr
  name : Option Bytes
  deriving DecidableEq

def ClientContext.policyBit (ctx : ClientContext) : UInt16 :=
  ctx.policy.bit

end FastAdHunter.Rules
