import FastAdHunter.Lib.Arena
import FastAdHunter.Lib.LinearProbing
import FastAdHunter.Rules.Client
import FastAdHunter.Rules.Masks

/-!
# The domain tier: builder and compiled index

Rules for names are compiled into one byte arena, one small record a rule, and
an open-addressing table of record indices tagged with a byte of the hash.
While lists are added, a second table of record indices finds rules that are
already there, so that a rule supplied by several lists is stored once, visible
to the union of their policies.

Indices and lengths are natural numbers; the two places where the source
narrows them, the arena offset and the 24-bit record index, are checked, and
`none` stands for the panic. The side maps are association lists.
-/

namespace FastAdHunter.Rules

open Lib Net Probing

/-- The free slot of a table of record indices. -/
def emptySlot : Nat := 4294967295

def indexBits : Nat := 24

def indexMask : Nat := 16777215

def maxRecords : Nat := indexMask

def tagOf (hash : UInt64) : Nat :=
  (hash &&& 0xff).toNat

def packSlot (tag index : Nat) : Nat :=
  (tag <<< indexBits) ||| index

def tableSlots (entries : Nat) : Nat :=
  max (entries * 10 / 7) 8

def dedupSlots (entries : Nat) : Nat :=
  max (entries * 2) 8

def maxPreallocRules : Nat := 4000000

/-- Map a 64-bit hash into `[0, cap)`. -/
def fastrange (hash : UInt64) (cap : Nat) : Nat :=
  hash.toNat * cap / 2 ^ 64

lemma fastrange_lt (hash : UInt64) (hcap : 0 < cap) : fastrange hash cap < cap := by
  apply Nat.div_lt_of_lt_mul
  exact Nat.mul_lt_mul_of_pos_right hash.toNat_lt hcap

def fnvBasis : UInt64 := 0xcbf29ce484222325

def fnvPrime : UInt64 := 0x100000001b3

/-- FNV-1a over the bytes in lower case. -/
def hashDomain (bytes : Bytes) : UInt64 :=
  bytes.foldl (fun h b => (h ^^^ (toLower b).toUInt64) * fnvPrime) fnvBasis

/-- Continue an FNV-1a chain over the bytes as they are. -/
def hashExtend (h : UInt64) (bytes : Bytes) : UInt64 :=
  bytes.foldl (fun h b => (h ^^^ b.toUInt64) * fnvPrime) h

def identityHash (domain : Bytes) (flags : UInt8)
    (dnsTypes rewrite client : Option Bytes) : UInt64 :=
  ([dnsTypes, rewrite, client].filterMap id).foldl hashExtend
    (hashExtend (hashDomain domain) [flags])

def flagAllow : UInt8 := 1
def flagSubdomains : UInt8 := 2
def flagDnstype : UInt8 := 4
def flagRewrite : UInt8 := 8
def flagClient : UInt8 := 16

/-- One compiled rule: its domain in the arena, its flags, its list. -/
structure Record where
  domOff : Nat
  domLen : Nat
  flags : UInt8
  listId : Nat
  deriving DecidableEq

namespace Record

def isAllow (rec : Record) : Bool := rec.flags &&& flagAllow != 0
def includeSubdomains (rec : Record) : Bool := rec.flags &&& flagSubdomains != 0
def hasDnstype (rec : Record) : Bool := rec.flags &&& flagDnstype != 0
def hasRewrite (rec : Record) : Bool := rec.flags &&& flagRewrite != 0
def hasClient (rec : Record) : Bool := rec.flags &&& flagClient != 0

def domain (rec : Record) (arena : Bytes) : Bytes :=
  (arena.drop rec.domOff).take rec.domLen

end Record

/-- The flags of a rule; the client bit is set once its scope has compiled. -/
def flagsOf (rule : DomainRule) (hasClient : Bool) : UInt8 :=
  (if rule.action = .allow then flagAllow else 0) |||
    (if rule.includeSubdomains then flagSubdomains else 0) |||
    (if rule.dnsTypes.isSome then flagDnstype else 0) |||
    (if rule.dnsRewrite.isSome then flagRewrite else 0) |||
    (if hasClient then flagClient else 0)

def allPolicies : UInt16 := 0xffff

/-- The domain half of the ruleset under construction. -/
structure DomainBuilder where
  arena : Bytes
  records : List Record
  lists : List Bytes
  dnstype : List (Nat × (UInt32 × Bytes))
  rewrite : List (Nat × Bytes)
  clients : List (Nat × ClientScope)
  listPolicy : List UInt16
  policyUniverse : UInt16
  recordPolicy : List UInt16
  dedup : List Nat
  duplicatesRemoved : Nat

/-- Where an incoming rule lands in the dedup table. -/
inductive DedupSlot where
  | vacant (slot : Nat)
  | duplicate (index : Nat)
  deriving DecidableEq

namespace DomainBuilder

def default : DomainBuilder where
  arena := []
  records := []
  lists := []
  dnstype := []
  rewrite := []
  clients := []
  listPolicy := []
  policyUniverse := allPolicies
  recordPolicy := []
  dedup := []
  duplicatesRemoved := 0

def withCapacity (expectedRules : Nat) : DomainBuilder :=
  { default with
    dedup := List.replicate (dedupSlots (min expectedRules maxPreallocRules)) emptySlot }

def setPolicyUniverse (b : DomainBuilder) (policies : UInt16) : DomainBuilder :=
  { b with policyUniverse := policies }

/-- Register a list; at most 65,536 can be. -/
def addListMasked (b : DomainBuilder) (name : Bytes) (policyMask : UInt16) :
    Option (DomainBuilder × Nat) :=
  if b.lists.length < 65536 then
    some ({ b with
        lists := b.lists ++ [name]
        listPolicy := b.listPolicy ++ [policyMask] }, b.lists.length)
  else none

/-- The identity hash of a stored record, read back from the arena and the
side maps. -/
def recordHash (b : DomainBuilder) (rec : Record) (idx : Nat) : UInt64 :=
  identityHash (rec.domain b.arena) rec.flags
    ((b.dnstype.lookup idx).map Prod.snd) (b.rewrite.lookup idx)
    ((b.clients.lookup idx).map ClientScope.raw)

/-- Rehash every record into a larger table once the old one would be more
than half full. -/
def reserveDedup (b : DomainBuilder) : Option DomainBuilder :=
  let needed := b.records.length + 1
  if needed * 2 ≤ b.dedup.length then some b
  else do
    let cap := dedupSlots (needed * 2)
    let grown ← b.records.zipIdx.foldlM
      (fun t entry =>
        place emptySlot t (fastrange (b.recordHash entry.1 entry.2) cap) entry.2)
      (List.replicate cap emptySlot)
    return { b with dedup := grown }

/-- Whether record `idx` is the incoming rule. Options are compared only when
the flags say that they are there. -/
def identityMatches (b : DomainBuilder) (idx : Nat) (rule : DomainRule)
    (flags : UInt8) (scope : Option ClientScope) : Bool :=
  match b.records[idx]? with
  | none => false
  | some rec =>
    rec.flags == flags &&
      eqIgnoreAsciiCase (rec.domain b.arena) rule.domain &&
      (!rec.hasDnstype ||
        (b.dnstype.lookup idx).map Prod.snd == some (rule.dnsTypes.getD [])) &&
      (!rec.hasRewrite ||
        b.rewrite.lookup idx == some (rule.dnsRewrite.getD [])) &&
      (!rec.hasClient ||
        (b.clients.lookup idx).map ClientScope.raw ==
          some ((scope.map ClientScope.raw).getD []))

/-- Find the incoming rule in the dedup table, or the slot it goes to. -/
def dedupSlotFor (b : DomainBuilder) (rule : DomainRule) (flags : UInt8)
    (scope : Option ClientScope) : Option (DomainBuilder × DedupSlot) := do
  let b ← b.reserveDedup
  let hash := identityHash rule.domain flags rule.dnsTypes rule.dnsRewrite
    (scope.map ClientScope.raw)
  let visit (_ : Unit) (idx : Nat) : Except Nat Unit :=
    if b.identityMatches idx rule flags scope then .error idx else .ok ()
  match ← probeLoop emptySlot b.dedup visit b.dedup.length
      (fastrange hash b.dedup.length) () with
  | .error idx => return (b, .duplicate idx)
  | .ok (_, slot) => return (b, .vacant slot)

/-- Append a rule that is not there yet. -/
def pushRecord (b : DomainBuilder) (listId : Nat) (rule : DomainRule)
    (flags : UInt8) (scope : Option ClientScope) (policyMask : UInt16)
    (slot : Nat) : Option DomainBuilder :=
  if 4294967296 ≤ b.arena.length then none
  else if maxRecords ≤ b.records.length then none
  else
    let idx := b.records.length
    some
      { b with
        dnstype := insertSome idx
          (rule.dnsTypes.map fun raw => (parseDnstypeMask raw, raw)) b.dnstype
        rewrite := insertSome idx rule.dnsRewrite b.rewrite
        clients := insertSome idx scope b.clients
        arena := b.arena ++ rule.domain
        records := b.records ++ [⟨b.arena.length, rule.domain.length, flags, listId⟩]
        recordPolicy := b.recordPolicy ++ [policyMask]
        dedup := b.dedup.set slot idx }

/-- The compiled scope of a rule; `none` when its payload has no selector. -/
def compileScope (rule : DomainRule) : Option (Option ClientScope) :=
  match rule.client with
  | none => some none
  | some raw => (ClientScope.parse raw).map some

/-- Add one rule. A name that does not fit a record, or a client payload
without a selector, drops the rule; a rule that is already there only widens
its visibility. -/
def addRule (b : DomainBuilder) (listId : Nat) (rule : DomainRule) :
    Option DomainBuilder :=
  if rule.domain.length = 0 ∨ 255 < rule.domain.length then some b
  else
    match compileScope rule with
    | none => some b
    | some scope => do
        let flags := flagsOf rule scope.isSome
        let policyMask ← b.listPolicy[listId]?
        let (b, slot) ← b.dedupSlotFor rule flags scope
        match slot with
        | .duplicate idx =>
          some
            { b with
              recordPolicy := b.recordPolicy.modify idx (· ||| policyMask)
              duplicatesRemoved := b.duplicatesRemoved + 1 }
        | .vacant slot => b.pushRecord listId rule flags scope policyMask slot

/-- The active rules of one list, in order. -/
def addRules (b : DomainBuilder) (listId : Nat) (rules : List DomainRule) :
    Option DomainBuilder :=
  rules.foldlM (fun b rule => b.addRule listId rule) b

end DomainBuilder

/-- The compiled domain tier. An empty policy mask means that every rule is
visible to every policy. -/
structure DomainIndex where
  arena : Bytes
  records : List Record
  slots : List Nat
  lists : List Bytes
  dnstype : List (Nat × (UInt32 × Bytes))
  rewrite : List (Nat × Bytes)
  clients : List (Nat × ClientScope)
  policyMask : List UInt16
  namedClientScopes : Bool
  duplicatesRemoved : Nat

/-- Fill the slot table and drop the mask array when nothing is hidden. -/
def DomainBuilder.build (b : DomainBuilder) : Option DomainIndex := do
  let cap := tableSlots b.records.length
  let slots ← b.records.zipIdx.foldlM
    (fun t entry =>
      let hash := hashDomain (entry.1.domain b.arena)
      place emptySlot t (fastrange hash cap) (packSlot (tagOf hash) entry.2))
    (List.replicate cap emptySlot)
  return {
    arena := b.arena
    records := b.records
    slots := slots
    lists := b.lists
    dnstype := b.dnstype
    rewrite := b.rewrite
    clients := b.clients
    policyMask :=
      if b.recordPolicy.all (· == b.policyUniverse) then [] else b.recordPolicy
    namedClientScopes := b.clients.any (·.2.namesAClient)
    duplicatesRemoved := b.duplicatesRemoved }

/-- What the walk over one tier found. -/
inductive TierDecision where
  | allow (index : Nat)
  | block (index : Nat)
  | pass
  deriving DecidableEq

namespace DomainIndex

def visible (m : DomainIndex) (idx : Nat) (ctx : ClientContext) : Bool :=
  !(!m.policyMask.isEmpty && m.policyMask.getD idx 0 &&& ctx.policyBit == 0)

def clientAdmits (m : DomainIndex) (idx : Nat) (ctx : ClientContext) : Bool :=
  (m.clients.lookup idx).any (·.admits ctx.ip ctx.name)

/-- Whether a record whose domain is the suffix takes part in the decision. -/
def applies (m : DomainIndex) (rec : Record) (idx : Nat) (isSubdomainLevel : Bool)
    (qbit : Option UInt32) (ctx : ClientContext) : Bool :=
  let typeApplies := !rec.hasDnstype ||
    qbit.any fun bit => (m.dnstype.lookup idx).any fun entry => entry.1 &&& bit != 0
  let dnsOnly := rec.hasRewrite && qbit.isNone
  (!isSubdomainLevel || rec.includeSubdomains) && typeApplies && !dnsOnly &&
    m.visible idx ctx && (!rec.hasClient || m.clientAdmits idx ctx)

/-- The work at one occupied slot: an applicable allow ends the whole lookup,
the first applicable block is remembered. -/
def visitSlot (m : DomainIndex) (suffix : Bytes) (isSubdomainLevel : Bool)
    (qbit : Option UInt32) (ctx : ClientContext) (blocked : Option Nat)
    (packed : Nat) : Except Nat (Option Nat) :=
  let idx := packed &&& indexMask
  match m.records[idx]? with
  | none => .ok blocked
  | some rec =>
    if packed >>> indexBits == tagOf (hashDomain suffix) &&
        eqIgnoreAsciiCase (rec.domain m.arena) suffix then
      if m.applies rec idx isSubdomainLevel qbit ctx then
        if rec.isAllow then .error idx
        else .ok (blocked.or (some idx))
      else .ok blocked
    else .ok blocked

/-- The walk over the suffixes of the query, most specific first. -/
def lookupFrom (m : DomainIndex) (queryLen : Nat) (qbit : Option UInt32)
    (ctx : ClientContext) : Nat → Bytes → Option Nat → Option TierDecision
  | 0, _, _ => none
  | fuel + 1, suffix, blocked => do
      let visit := m.visitSlot suffix (suffix.length != queryLen) qbit ctx
      match ← probeLoop emptySlot m.slots visit m.slots.length
          (fastrange (hashDomain suffix) m.slots.length) blocked with
      | .error idx => some (.allow idx)
      | .ok (blocked, _) =>
        match findByte (· == ch '.') suffix with
        | some rel =>
          lookupFrom m queryLen qbit ctx fuel (suffix.drop (rel + 1)) blocked
        | none =>
          match blocked with
          | some idx => some (.block idx)
          | none => some .pass

/-- One trailing dot is dropped, then every suffix is looked up. -/
def lookupDomain (m : DomainIndex) (domain : Bytes) (qbit : Option UInt32)
    (ctx : ClientContext) : Option TierDecision :=
  let query := (stripSuffix [ch '.'] domain).getD domain
  m.lookupFrom query.length qbit ctx (query.length + 1) query none

end DomainIndex

end FastAdHunter.Rules
