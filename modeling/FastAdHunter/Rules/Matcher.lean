import FastAdHunter.Rules.DomainTier.Lookup
import FastAdHunter.Rules.Parser.Lists
import FastAdHunter.Rules.UrlTier.Build
import FastAdHunter.Rules.UrlTier.Lookup

/-!
# The compiled ruleset

One builder fills both tiers from the same parsed lists, and one matcher answers
for both: a DNS question from the domain tier, a request from the URL tier and
then from the domain tier.
-/

namespace FastAdHunter.Rules

open Lib Net List

/-- A reference to a compiled rule; the top bit tells the URL tier. -/
structure RuleRef where
  raw : Nat
  deriving DecidableEq

def urlTier : Nat := 2147483648

def RuleRef.ofDomain (index : Nat) : RuleRef := ⟨index⟩

def RuleRef.ofUrl (index : Nat) : RuleRef := ⟨index ||| urlTier⟩

def RuleRef.isUrlRule (r : RuleRef) : Bool :=
  r.raw &&& urlTier != 0

def RuleRef.index (r : RuleRef) : Nat :=
  r.raw % urlTier

inductive MatchDecision where
  | allow (rule : RuleRef)
  | block (rule : RuleRef)
  | pass
  deriving DecidableEq

def MatchDecision.ofDomain : TierDecision → MatchDecision
  | .allow index => .allow (.ofDomain index)
  | .block index => .block (.ofDomain index)
  | .pass => .pass

/-- The client to policy mapping in force at one instant: the most specific
assignment first, and the names of clients. -/
structure ActivePolicies where
  assignments : List (ClientSelector × PolicyId)
  names : List (IpAddr × Bytes)
  deriving DecidableEq

def PolicyId.default : PolicyId := ⟨0⟩

/-- Which policy judges this client. -/
def ActivePolicies.policyFor (active : ActivePolicies) (ip : IpAddr) : PolicyId :=
  (active.assignments.find? fun entry => entry.1.matches ip none).elim .default Prod.snd

def ActivePolicies.nameOf (active : ActivePolicies) (ip : IpAddr) : Option Bytes :=
  active.names.lookup ip

/-- Both tiers under construction. -/
structure MatcherBuilder where
  domain : DomainBuilder
  url : Url.UrlIndexBuilder

/-- The compiled ruleset. -/
structure Matcher where
  domain : DomainIndex
  url : Url.UrlIndex
  namedClientScopes : Bool

namespace MatcherBuilder

def withCapacity (expectedRules : Nat) : MatcherBuilder :=
  ⟨.withCapacity expectedRules, .default⟩

def setPolicyUniverse (b : MatcherBuilder) (policies : UInt16) : MatcherBuilder :=
  { b with domain := b.domain.setPolicyUniverse policies }

def addUrlRule (b : MatcherBuilder) (listId : Nat) (rule : UrlRule) :
    Option MatcherBuilder := do
  let policyMask ← b.domain.listPolicy[listId]?
  let url ← b.url.add listId rule policyMask
  return { b with url := url }

/-- Add a rule to the tier that answers it; inactive rules are ignored. -/
def addKind (listId : Nat) (b : MatcherBuilder) : RuleKind → Option MatcherBuilder
  | .active rule => (b.domain.addRule listId rule).map fun domain => { b with domain := domain }
  | .url rule => b.addUrlRule listId rule
  | .inactive _ => some b

def addParsedListMasked (b : MatcherBuilder) (name : Bytes) (list : ParsedRuleList)
    (policyMask : UInt16) : Option MatcherBuilder := do
  let (domain, listId) ← b.domain.addListMasked name policyMask
  list.rules.foldlM (addKind listId) { b with domain := domain }

def build (b : MatcherBuilder) : Option Matcher := do
  let domain ← b.domain.build
  let url ← b.url.build b.domain.policyUniverse
  return {
    domain := domain
    url := url
    namedClientScopes := url.namedClientScopes || domain.namedClientScopes }

end MatcherBuilder

namespace Matcher

variable (m : Matcher)

/-- The lookup context for one client. The name is looked up only when some
rule asks for names. -/
def contextFor (ip : IpAddr) (active : ActivePolicies) : ClientContext where
  policy := active.policyFor ip
  ip := some ip
  name := if m.namedClientScopes then active.nameOf ip else none

/-- The verdict on a DNS question. -/
def lookupIn (domain : Bytes) (qtype : QueryType) (ctx : ClientContext) :
    Option MatchDecision :=
  (m.domain.lookupDomain domain (some (qtypeBit qtype)) ctx).map .ofDomain

/-- The verdict on a host name alone, as in a TLS greeting. -/
def lookupHostIn (host : Bytes) (ctx : ClientContext) : Option MatchDecision :=
  (m.domain.lookupDomain host none ctx).map .ofDomain

/-- The verdict on a request: an allow of either tier wins, then a block of the
URL tier, then a block of the domain tier. -/
def lookupHttpIn (request : HttpRequest) (ctx : ClientContext) : Option MatchDecision :=
  match (m.url.lookup request ctx).1 with
  | .allow index => some (.allow (.ofUrl index))
  | .block index =>
    (m.domain.lookupDomain request.host none ctx).map fun
      | .allow rule => .allow (.ofDomain rule)
      | _ => .block (.ofUrl index)
  | .pass => (m.domain.lookupDomain request.host none ctx).map .ofDomain

/-- The `$dnsrewrite` payload of a decided rule. -/
def rewrite (r : RuleRef) : Option (Option Bytes) :=
  if r.isUrlRule then some none
  else
    (m.domain.records[r.index]?).map fun rec =>
      if rec.hasRewrite then m.domain.rewrite.lookup r.index else none

end Matcher

/-- A list as it reaches the compile. -/
structure SourceList where
  name : Bytes
  text : Bytes
  mask : UInt16
  deriving DecidableEq

def compile (expectedRules : Nat) (policies : UInt16) (lists : List SourceList) :
    Option Matcher := do
  let b ← lists.foldlM
    (fun b list => b.addParsedListMasked list.name (parseRuleList list.text) list.mask)
    ((MatcherBuilder.withCapacity expectedRules).setPolicyUniverse policies)
  b.build

def domainRules (rules : List RuleKind) : List DomainRule :=
  rules.filterMap fun
    | .active rule => some rule
    | _ => none

def urlRules (rules : List RuleKind) : List UrlRule :=
  rules.filterMap fun
    | .url rule => some rule
    | _ => none

/-- What the lists contribute to the domain tier, in order. List `i` of the
sequence gets the id `i`. -/
def entriesOf (lists : List SourceList) (first : Nat) : List Entry :=
  (lists.zipIdx first).flatMap fun entry =>
    (domainRules (parseRuleList entry.1.text).rules).map fun rule =>
      ((rule, entry.2), entry.1.mask)

def urlEntriesOf (lists : List SourceList) (first : Nat) : List Url.UrlEntry :=
  (lists.zipIdx first).flatMap fun entry =>
    (urlRules (parseRuleList entry.1.text).rules).map fun rule =>
      ((rule, entry.2), entry.1.mask)

/-- The merged URL rules of a sequence of additions. -/
def mergedUrls (added : List Url.UrlEntry) : List Url.UrlEntry :=
  added.foldl Url.addUrlStep []

lemma fits_entriesOf (lists : List SourceList) (first : Nat) : Fits (entriesOf lists first) := by
  intro x hx
  obtain ⟨entry, -, hx⟩ := mem_flatMap.mp hx
  obtain ⟨rule, hrule, rfl⟩ := mem_map.mp hx
  obtain ⟨kind, hkind, hsome⟩ := mem_filterMap.mp hrule
  have hnormal := parseRuleList_normal entry.1.text kind hkind
  cases kind with
  | active r =>
    cases hsome
    refine ⟨length_pos_of_ne_nil hnormal.ne_nil, ?_⟩
    exact hnormal.length_le.trans (by decide)
  | url r => cases hsome
  | inactive reason => cases hsome

section Compiling

/-- Both tiers store exactly these merged rules. -/
structure MatcherBuilder.Stores (b : MatcherBuilder) (ms : List Entry)
    (us : List Url.UrlEntry) : Prop where
  domain : Rules.Stores b.domain ms
  url : Url.Stores b.url us

def AddsBoth (b : MatcherBuilder) (result : Option MatcherBuilder) (ms : List Entry)
    (us : List Url.UrlEntry) : Prop :=
  match result with
  | some b' => b'.Stores ms us ∧ SameLists b.domain b'.domain
  | none => TooLarge ms ∨ Url.UrlTooLarge us

lemma AddsBoth.of_same (hsame : SameLists b.domain b'.domain) (h : AddsBoth b' result ms us) :
    AddsBoth b result ms us := by
  cases result with
  | none => exact h
  | some b'' => exact ⟨h.1, hsame.trans h.2⟩

variable {b : MatcherBuilder} {ms : List Entry} {us : List Url.UrlEntry}

lemma MatcherBuilder.Stores.addKinds (rules : List RuleKind)
    (h : b.Stores ms us) (hlist : b.domain.listPolicy[listId]? = some mask) :
    AddsBoth b (rules.foldlM (MatcherBuilder.addKind listId) b)
      (((domainRules rules).map fun r => ((r, listId), mask)).foldl addStep ms)
      (((urlRules rules).map fun r => ((r, listId), mask)).foldl Url.addUrlStep us) := by
  induction rules generalizing b ms us with
  | nil => exact ⟨h, rfl, rfl, rfl⟩
  | cons rule rules ih =>
    rw [foldlM_cons]
    cases rule with
    | active r =>
      have hstep := h.domain.addRule hlist r
      rw [MatcherBuilder.addKind]
      cases hadd : b.domain.addRule listId r with
      | none =>
        rw [hadd] at hstep
        exact .inl (TooLarge.foldl hstep _)
      | some domain =>
        rw [hadd] at hstep
        obtain ⟨hstores, hsame⟩ := hstep
        have hnext : MatcherBuilder.Stores { b with domain := domain } _ us := ⟨hstores, h.url⟩
        exact (ih hnext (by rw [← hlist, ← hsame.listPolicy])).of_same hsame
    | url r =>
      have hstep := h.url.add listId r mask
      simp only [MatcherBuilder.addKind, MatcherBuilder.addUrlRule, hlist,
        Option.bind_eq_bind, Option.bind_some]
      cases hadd : b.url.add listId r mask with
      | none =>
        rw [hadd] at hstep
        exact .inr (Url.UrlTooLarge.foldl hstep _)
      | some url =>
        rw [hadd] at hstep
        have hnext : MatcherBuilder.Stores { b with url := url } ms _ := ⟨h.domain, hstep⟩
        exact (ih hnext hlist).of_same ⟨rfl, rfl, rfl⟩
    | inactive reason => exact ih h hlist

lemma MatcherBuilder.Stores.addLists (lists : List SourceList) (h : b.Stores ms us) :
    match lists.foldlM (fun b list =>
        b.addParsedListMasked list.name (parseRuleList list.text) list.mask) b with
    | some b' =>
      b'.Stores ((entriesOf lists b.domain.lists.length).foldl addStep ms)
        ((urlEntriesOf lists b.domain.lists.length).foldl Url.addUrlStep us) ∧
      b'.domain.policyUniverse = b.domain.policyUniverse
    | none =>
      TooLarge ((entriesOf lists b.domain.lists.length).foldl addStep ms) ∨
        Url.UrlTooLarge ((urlEntriesOf lists b.domain.lists.length).foldl Url.addUrlStep us) ∨
        65536 < b.domain.lists.length + lists.length := by
  induction lists generalizing b ms us with
  | nil => exact ⟨h, rfl⟩
  | cons list lists ih =>
    by_cases hroom : b.domain.lists.length < 65536
    case neg =>
      have hnone : b.domain.addListMasked list.name list.mask = none := if_neg hroom
      rw [foldlM_cons, MatcherBuilder.addParsedListMasked, hnone]
      refine .inr (.inr ?_)
      rw [length_cons]
      omega
    obtain ⟨domain, hadd, hstores, hlists, huniverse, hmask⟩ :=
      h.domain.addListMasked hroom list.name list.mask
    have hbase : MatcherBuilder.Stores { b with domain := domain } ms us := ⟨hstores, h.url⟩
    have hrules := hbase.addKinds (parseRuleList list.text).rules hmask
    have hentries : entriesOf (list :: lists) b.domain.lists.length =
        (domainRules (parseRuleList list.text).rules).map (fun r =>
          ((r, b.domain.lists.length), list.mask)) ++
        entriesOf lists (b.domain.lists.length + 1) := by
      simp [entriesOf]
    have hurls : urlEntriesOf (list :: lists) b.domain.lists.length =
        (urlRules (parseRuleList list.text).rules).map (fun r =>
          ((r, b.domain.lists.length), list.mask)) ++
        urlEntriesOf lists (b.domain.lists.length + 1) := by
      simp [urlEntriesOf]
    rw [foldlM_cons, MatcherBuilder.addParsedListMasked, hadd, hentries, hurls,
      foldl_append, foldl_append]
    dsimp only [Option.bind_eq_bind, Option.bind_some]
    revert hrules
    cases (parseRuleList list.text).rules.foldlM
        (MatcherBuilder.addKind b.domain.lists.length) { b with domain := domain } with
    | none =>
      rintro (hlarge | hlarge)
      · exact .inl (hlarge.foldl _)
      · exact .inr (.inl (hlarge.foldl _))
    | some b' =>
      rintro ⟨hstores', hsame⟩
      have hlen : b'.domain.lists.length = b.domain.lists.length + 1 := by
        rw [hsame.lists]
        simp [hlists]
      have hrest := ih hstores'
      rw [hlen] at hrest
      revert hrest
      dsimp only [Option.bind_some]
      cases lists.foldlM (fun b list =>
          b.addParsedListMasked list.name (parseRuleList list.text) list.mask) b' with
      | none =>
        rintro (hlarge | hlarge | hmany)
        · exact .inl hlarge
        · exact .inr (.inl hlarge)
        · refine .inr (.inr ?_)
          rw [length_cons]
          omega
      | some b'' =>
        exact fun hfinal => ⟨hfinal.1, hfinal.2.trans (hsame.policyUniverse.trans huniverse)⟩

/-- The limits of a ruleset: 24 bits of domain rules, 32 bits of URL rules, 4 GiB
for each arena, 16 bits of lists. -/
structure Sized (lists : List SourceList) : Prop where
  domain : ¬ TooLarge (merged (entriesOf lists 0))
  url : ¬ Url.UrlTooLarge (mergedUrls (urlEntriesOf lists 0))
  lists : lists.length ≤ 65536

/-- A compiled ruleset stores what its lists contribute. -/
structure Ruleset (m : Matcher) (policies : UInt16) (lists : List SourceList) : Prop where
  domain : Compiled m.domain policies (merged (entriesOf lists 0))
  url : ∃ b slots, Url.Stores b (mergedUrls (urlEntriesOf lists 0)) ∧
    m.url = b.compiled policies slots ∧ m.url.Tabled

lemma MatcherBuilder.Stores.build (h : b.Stores ms us) :
    ∃ m, b.build = some m ∧ Compiled m.domain b.domain.policyUniverse ms ∧
      ∃ ub slots, Url.Stores ub us ∧ m.url = ub.compiled b.domain.policyUniverse slots ∧
        m.url.Tabled := by
  obtain ⟨domain, hdomain, hcompiled, -⟩ := h.domain.build
  obtain ⟨slots, hurl, htable⟩ := (Url.Rep.fits h.url).build b.domain.policyUniverse
  refine ⟨⟨domain, b.url.compiled b.domain.policyUniverse slots,
    b.url.namedClientScopes || domain.namedClientScopes⟩, ?_, hcompiled, b.url, slots, h.url, rfl,
    htable⟩
  rw [MatcherBuilder.build, hdomain, hurl]
  rfl

lemma stores_empty (expectedRules : Nat) (policies : UInt16) :
    ((MatcherBuilder.withCapacity expectedRules).setPolicyUniverse policies).Stores [] [] :=
  ⟨Rules.Stores.default expectedRules policies, Url.stores_default⟩

variable {lists : List SourceList}

/-- **Lists that fit compile.** -/
theorem compile_spec (expectedRules : Nat) (policies : UInt16) (h : Sized lists) :
    ∃ m, compile expectedRules policies lists = some m ∧ Ruleset m policies lists := by
  have hadd := (stores_empty expectedRules policies).addLists lists
  rw [compile]
  revert hadd
  cases lists.foldlM (fun b list =>
      b.addParsedListMasked list.name (parseRuleList list.text) list.mask)
      ((MatcherBuilder.withCapacity expectedRules).setPolicyUniverse policies) with
  | none =>
    rintro (hlarge | hlarge | hmany)
    · exact absurd hlarge h.domain
    · exact absurd hlarge h.url
    · have := h.lists
      have hzero : ((MatcherBuilder.withCapacity expectedRules).setPolicyUniverse
        policies).domain.lists.length = 0 := rfl
      omega
  | some b =>
    rintro ⟨hstores, huniverse⟩
    obtain ⟨m, hm, hdomain, hurl⟩ := hstores.build
    rw [huniverse] at hdomain hurl
    exact ⟨m, hm, hdomain, hurl⟩

/-- **What compiled has that form.** -/
theorem compile_ruleset (h : compile expectedRules policies lists = some m) :
    Ruleset m policies lists := by
  have hadd := (stores_empty expectedRules policies).addLists lists
  rw [compile] at h
  revert hadd h
  cases lists.foldlM (fun b list =>
      b.addParsedListMasked list.name (parseRuleList list.text) list.mask)
      ((MatcherBuilder.withCapacity expectedRules).setPolicyUniverse policies) with
  | none => exact fun h => (by cases h)
  | some b =>
    rintro h ⟨hstores, huniverse⟩
    obtain ⟨m', hm, hdomain, hurl⟩ := hstores.build
    have heq : m = m' := Option.some.inj (h.symm.trans hm)
    subst heq
    rw [huniverse] at hdomain hurl
    exact ⟨hdomain, hurl⟩

lemma Ruleset.rewrite_ofDomain (h : Ruleset m policies lists)
    (hstored : m.domain.records[i]? = some stored) :
    ∃ payload, m.rewrite (.ofDomain i) = some payload := by
  have hlt : i < urlTier := by
    have hi := (List.getElem?_eq_some_iff.mp hstored).1
    have hsmall := h.domain.small
    rw [h.domain.recordsLength] at hi
    simp only [maxRecords, indexMask] at hsmall
    simp only [urlTier]
    omega
  have htier : (RuleRef.ofDomain i).isUrlRule = false := by
    have hand : i &&& 2 ^ 31 = 0 := by
      apply Nat.eq_of_testBit_eq
      intro k
      rw [Nat.testBit_and, Nat.testBit_two_pow, Nat.zero_testBit, Bool.and_eq_false_iff]
      by_cases hk : 31 = k
      · exact .inl (hk ▸ Nat.testBit_lt_two_pow hlt)
      · exact .inr (decide_eq_false hk)
    simp only [RuleRef.isUrlRule, bne_eq_false_iff_eq]
    exact hand
  have hindex : (RuleRef.ofDomain i).index = i := Nat.mod_eq_of_lt hlt
  rw [Matcher.rewrite, htier, hindex, hstored]
  exact ⟨_, rfl⟩

end Compiling

end FastAdHunter.Rules
