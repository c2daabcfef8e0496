import FastAdHunter.Rules.Parser.Adblock

/-!
# Parsing a rule list

Hosts files, plain domain lists, and the dispatch on the detected format. The
fact the compiler relies on is `parseRuleList_normal`: whatever the text, the
domain of every rule for the domain tier is normalised.
-/

namespace FastAdHunter.Rules

open Lib

/-- Names that hosts files give to the machine itself. -/
def loopbackAliases : List Bytes :=
  [lit "localhost", lit "localhost.localdomain", lit "local",
    lit "broadcasthost", lit "ip6-localhost", lit "ip6-loopback",
    lit "ip6-localnet", lit "ip6-mcastprefix", lit "ip6-allnodes",
    lit "ip6-allrouters", lit "ip6-allhosts"]

def isLoopbackAlias (host : Bytes) : Bool :=
  loopbackAliases.any (eqIgnoreAsciiCase host)

/-- One host token: whether it was understood, and the rule it yields. -/
def hostRule (host : Bytes) : Bool × Option RuleKind :=
  if isLoopbackAlias host then (true, none)
  else
    match normalizeDomain host with
    | none => (false, none)
    | some domain => (true, some (.active (.plain domain .block true)))

def Hosts.parseLine (line : Bytes) : LineOutcome :=
  let line := trim line
  if isIgnorable line then .skip
  else
    match splitWhitespace line with
    | [] => .error
    | ip :: tokens =>
      if !looksLikeIp ip then .error
      else
        let hosts := tokens.takeWhile fun token => !startsWith [ch '#'] token
        let results := hosts.map hostRule
        if results.any (·.1) then .rules (results.filterMap (·.2))
        else .error

def Hosts.parse (text : Bytes) : ParsedRuleList :=
  collectLines .hosts Hosts.parseLine text

def DomainList.parseLine (line : Bytes) : LineOutcome :=
  let line := trim line
  if isIgnorable line then .skip
  else
    match normalizeDomain line with
    | some domain => .rules [.active (.plain domain .block true)]
    | none => .error

def DomainList.parse (text : Bytes) : ParsedRuleList :=
  collectLines .plainDomainList DomainList.parseLine text

/-- Parse one list, detecting its format. -/
def parseRuleList (text : Bytes) : ParsedRuleList :=
  match detectFormat text with
  | .hosts => Hosts.parse text
  | .plainDomainList => DomainList.parse text
  | .adblock => Adblock.parse text

/-- The domain of a domain-tier rule is normalised, and the pattern of a URL
rule is in lower case unless the rule matches case. -/
def RuleKind.Normal : RuleKind → Prop
  | .active rule => IsNormalDomain rule.domain
  | .url rule => rule.matchCase = false → lower rule.pattern = rule.pattern
  | .inactive _ => True

/-- What every parsed rule satisfies: its domain came out of the normaliser, or
its pattern was folded. -/
def RuleKind.Parsed : RuleKind → Prop
  | .active rule => ∃ candidate, normalizeDomain candidate = some rule.domain
  | .url rule => rule.matchCase = false → lower rule.pattern = rule.pattern
  | .inactive _ => True

lemma RuleKind.Parsed.normal {rule : RuleKind} (h : rule.Parsed) : rule.Normal := by
  cases rule with
  | active rule =>
    obtain ⟨candidate, hcandidate⟩ := h
    exact normalizeDomain_spec hcandidate
  | url rule => exact h
  | inactive reason => trivial

def LineOutcome.Parsed : LineOutcome → Prop
  | .rules found => ∀ rule ∈ found, rule.Parsed
  | _ => True

lemma parsed_singleton (h : rule.Parsed) :
    (LineOutcome.rules [rule]).Parsed := by
  intro r hr
  rwa [List.mem_singleton.mp hr]

lemma collectLines_all {P : RuleKind → Prop}
    (h : ∀ line found, parseLine line = .rules found → ∀ rule ∈ found, P rule) (text : Bytes) :
    ∀ rule ∈ (collectLines format parseLine text).rules, P rule := by
  have hstep : ∀ acc entry, (∀ rule ∈ acc.1, P rule) →
      ∀ rule ∈ (collectStep parseLine acc entry).1, P rule := by
    intro acc entry hacc
    simp only [collectStep]
    cases hp : parseLine entry.1 with
    | skip | error => exact hacc
    | rules found =>
      intro rule hrule
      rcases List.mem_append.mp hrule with hrule | hrule
      · exact hacc rule hrule
      · exact h _ _ hp rule hrule
  have hrun : ∀ (entries : List (Bytes × Nat)) (acc : List RuleKind × ParseErrorLog),
      (∀ rule ∈ acc.1, P rule) →
      ∀ rule ∈ (entries.foldl (collectStep parseLine) acc).1, P rule := by
    intro entries
    induction entries with
    | nil => exact fun acc hacc => hacc
    | cons entry entries ih =>
      exact fun acc hacc => ih _ (hstep acc entry hacc)
  exact hrun _ ([], .empty) (by simp)

lemma collectLines_parsed (h : ∀ line, (parseLine line).Parsed) (text : Bytes) :
    ∀ rule ∈ (collectLines format parseLine text).rules, rule.Parsed := by
  refine collectLines_all (fun line found hfound => ?_) text
  have hline := h line
  rw [hfound] at hline
  exact hline

lemma Hosts.parseLine_parsed (line : Bytes) : (Hosts.parseLine line).Parsed := by
  have hhost : ∀ host rule, (hostRule host).2 = some rule → rule.Parsed := by
    intro host rule h
    simp only [hostRule] at h
    split at h
    · cases h
    · split at h
      · cases h
      · next domain hd =>
        cases h
        exact ⟨_, hd⟩
  simp only [Hosts.parseLine]
  split
  · trivial
  · split
    · trivial
    · split
      · trivial
      · split
        · intro rule hrule
          obtain ⟨result, hmem, hsome⟩ := List.mem_filterMap.mp hrule
          obtain ⟨host, -, rfl⟩ := List.mem_map.mp hmem
          exact hhost host rule hsome
        · trivial

lemma DomainList.parseLine_parsed (line : Bytes) : (DomainList.parseLine line).Parsed := by
  simp only [DomainList.parseLine]
  split
  · trivial
  · split
    · next domain hd =>
      exact parsed_singleton ⟨_, hd⟩
    · trivial

lemma Adblock.domainRule_parsed (h : Adblock.domainRule pattern exception options = .rule rule) :
    ∃ candidate, normalizeDomain candidate = some rule.domain := by
  simp only [Adblock.domainRule] at h
  split at h
  · cases h
  · split at h
    · cases h
    · split at h
      · cases h
      · next domain hd =>
        split at h
        · split at h
          · cases h
          · cases h
            exact ⟨_, hd⟩
        · cases h

lemma Adblock.urlRule_parsed (pattern : Bytes) (exception : Bool) (options : Adblock.Options) :
    (Adblock.urlRule pattern exception options).Parsed := by
  have hof : ∀ anchor body endAnchored,
      (Adblock.urlRuleOf anchor body endAnchored exception options).Parsed := by
    intro anchor body endAnchored
    simp only [Adblock.urlRuleOf]
    split
    · trivial
    · split
      · trivial
      · intro hcase
        simp [show options.matchCase = false from hcase]
  simp only [Adblock.urlRule]
  split
  · trivial
  · exact hof _ _ _

lemma Adblock.classify_parsed (pattern : Bytes) (exception : Bool) (options : Adblock.Options) :
    (Adblock.classify pattern exception options).Parsed := by
  simp only [Adblock.classify]
  split
  · exact parsed_singleton trivial
  · split
    · next rule hd => exact parsed_singleton (Adblock.domainRule_parsed hd)
    · trivial
    · split
      · trivial
      · exact parsed_singleton (Adblock.urlRule_parsed _ _ _)

lemma Adblock.parseLine_parsed (line : Bytes) : (Adblock.parseLine line).Parsed := by
  have hrule : ∀ line, (Adblock.parseRule line).Parsed := by
    intro line
    simp only [Adblock.parseRule]
    split
    · trivial
    · exact Adblock.classify_parsed _ _ _
  simp only [Adblock.parseLine]
  split
  · trivial
  · split
    · trivial
    · split
      · split
        · trivial
        · exact parsed_singleton trivial
      · split
        · trivial
        · exact hrule _

lemma parseRuleList_parsed (text : Bytes) : ∀ rule ∈ (parseRuleList text).rules, rule.Parsed := by
  simp only [parseRuleList]
  split
  · exact collectLines_parsed Hosts.parseLine_parsed text
  · exact collectLines_parsed DomainList.parseLine_parsed text
  · exact collectLines_parsed Adblock.parseLine_parsed text

lemma parseRuleList_normal (text : Bytes) : ∀ rule ∈ (parseRuleList text).rules, rule.Normal :=
  fun rule hrule => (parseRuleList_parsed text rule hrule).normal

end FastAdHunter.Rules
