import FastAdHunter.Rules.Client
import FastAdHunter.Rules.Domain
import FastAdHunter.Rules.Masks
import FastAdHunter.Rules.Parser.Format

/-!
# The adblock syntax family

One line of an EasyList, uBlock or AdGuard list. A line is classified into the
tier that can answer it: `||domain^` with DNS-safe options goes to the domain
tier, everything else that addresses a request to the URL tier, and cosmetic
rules and options no tier can honour to neither.
-/

namespace FastAdHunter.Rules.Adblock

open Lib

structure Options where
  dnsTypes : Option Bytes
  dnsRewrite : Option Bytes
  client : Option Bytes
  party : Party
  resourceTypes : UInt16
  domains : Option Bytes
  methods : Option Bytes
  matchCase : Bool
  httpScoped : Bool
  unsupported : Bool
  deriving DecidableEq

def Options.default : Options where
  dnsTypes := none
  dnsRewrite := none
  client := none
  party := .any
  resourceTypes := 0
  domains := none
  methods := none
  matchCase := false
  httpScoped := false
  unsupported := false

/-- The options so far, with the type bits collected on the side. -/
structure OptionState where
  options : Options
  positiveTypes : UInt16
  negatedTypes : UInt16
  sawType : Bool
  deriving DecidableEq

/-- An option token: its name without the negation, whether it was negated, and
the value after the first equals sign. -/
structure OptionToken where
  name : Bytes
  negated : Bool
  value : Option Bytes
  deriving DecidableEq

def readToken (token : Bytes) : OptionToken :=
  let (name, value) :=
    match splitOnce (ch '=') token with
    | some (name, value) => (name, some value)
    | none => (token, none)
  match stripPrefix [ch '~'] name with
  | some rest => ⟨rest, true, value⟩
  | none => ⟨name, false, value⟩

/-- The part of the loop body after the resource types. Names are matched
exactly. -/
def applyNamed (options : Options) (token : OptionToken) : Options :=
  if token.name = lit "dnstype" then
    { options with dnsTypes := token.value }
  else if token.name = lit "dnsrewrite" then
    { options with dnsRewrite := token.value }
  else if token.name = lit "client" then
    match token.value with
    | some value =>
      if (ClientScope.parse value).isSome then
        { options with client := some value }
      else { options with unsupported := true }
    | none => { options with unsupported := true }
  else if token.name = lit "third-party" ∨ token.name = lit "3p" then
    { options with
      httpScoped := true
      party := if token.negated then .first else .third }
  else if token.name = lit "first-party" ∨ token.name = lit "1p" then
    { options with
      httpScoped := true
      party := if token.negated then .third else .first }
  else if token.name = lit "domain" ∨ token.name = lit "from" then
    match token.value with
    | some value =>
      if value.isEmpty then
        { options with httpScoped := true, unsupported := true }
      else { options with httpScoped := true, domains := some (lower value) }
    | none => { options with httpScoped := true, unsupported := true }
  else if token.name = lit "method" then
    match token.value with
    | some value =>
      if value.isEmpty then
        { options with httpScoped := true, unsupported := true }
      else { options with httpScoped := true, methods := some (upper value) }
    | none => { options with httpScoped := true, unsupported := true }
  else if token.name = lit "match-case" then
    { options with httpScoped := true, matchCase := !token.negated }
  else
    { options with httpScoped := true, unsupported := true }

/-- One round of the option loop; an empty token is an error. -/
def optionStep (st : OptionState) (piece : Bytes) : Option OptionState :=
  let token := trim piece
  if token.isEmpty then none
  else
    let token := readToken token
    match bitForOption token.name with
    | some bit =>
      some
        { options := { st.options with httpScoped := true }
          positiveTypes :=
            if token.negated then st.positiveTypes else st.positiveTypes ||| bit
          negatedTypes :=
            if token.negated then st.negatedTypes ||| bit else st.negatedTypes
          sawType := true }
    | none => some { st with options := applyNamed st.options token }

/-- Fold the type bits into the options. A set that folds to nothing can never
match, so it is unsupported. -/
def OptionState.finish (st : OptionState) : Options :=
  if st.sawType then
    let types :=
      if st.positiveTypes = 0 then allTypes &&& ~~~st.negatedTypes
      else st.positiveTypes &&& ~~~st.negatedTypes
    { st.options with
      resourceTypes := types
      unsupported := st.options.unsupported || types == 0 }
  else st.options

/-- `$option,option=value,...`; `none` is a parse error. -/
def parseOptions (raw : Bytes) : Option Options :=
  if raw.isEmpty then some .default
  else
    ((splitBy (· == ch ',') raw).foldlM optionStep
      ⟨.default, 0, 0, false⟩).map OptionState.finish

def cosmeticMarkers : List Bytes :=
  [lit "##", lit "#@#", lit "#?#", lit "#$#"]

/-- Position of the last `$` not preceded by a backslash. `escaped` tells
whether the byte before was one. -/
def optionSeparator : Bytes → Bool → Nat → Option Nat → Option Nat
  | [], _, _, at_ => at_
  | b :: s, escaped, i, at_ =>
    optionSeparator s (b == ch '\\') (i + 1)
      (if b == ch '$' && !escaped then some i else at_)

/-- The pattern and the options of a line. -/
def splitOptions (body : Bytes) : Bytes × Bytes :=
  match optionSeparator body false 0 none with
  | some i => (body.take i, body.drop (i + 1))
  | none => (body, [])

inductive DomainVerdict where
  | rule (rule : DomainRule)
  | malformed
  | notADomainRule
  deriving DecidableEq

def action (exception : Bool) : RuleAction :=
  if exception then .allow else .block

/-- Whether the pattern is purely about a name. Only nothing, `^` or `^|` may
follow `||domain`, and an option only a request can answer rules it out. -/
def domainRule (pattern : Bytes) (exception : Bool) (options : Options) :
    DomainVerdict :=
  match stripPrefix (lit "||") pattern with
  | none => .notADomainRule
  | some afterAnchor =>
    let stop :=
      (findByte (fun b => b == ch '^' || b == ch '/') afterAnchor).getD
        afterAnchor.length
    let domainPart := afterAnchor.take stop
    if domainPart.isEmpty then .malformed
    else
      match normalizeDomain domainPart with
      | none => .notADomainRule
      | some domain =>
        let tail := afterAnchor.drop stop
        if tail = [] ∨ tail = lit "^" ∨ tail = lit "^|" then
          if options.httpScoped then .notADomainRule
          else
            .rule
              { domain := domain
                action := action exception
                -- `||d^|` addresses `d` itself
                includeSubdomains := tail != lit "^|"
                opts := DomainOpts.boxed
                  { dnsTypes := options.dnsTypes
                    dnsRewrite := options.dnsRewrite
                    client := options.client } }
        else .notADomainRule

/-- The anchor of a URL pattern and what follows it. -/
def splitAnchor (pattern : Bytes) : UrlAnchor × Bytes :=
  match stripPrefix (lit "||") pattern with
  | some rest => (.domain, rest)
  | none =>
    match stripPrefix [ch '|'] pattern with
    | some rest => (.start, rest)
    | none => (.anywhere, pattern)

/-- The body of a URL pattern and whether a bar ends it. -/
def splitEndAnchor (body : Bytes) : Bytes × Bool :=
  match stripSuffix [ch '|'] body with
  | some head => (head, true)
  | none => (body, false)

/-- A URL rule from the body of its pattern. An empty body would match every
URL, and a record addresses its texts with 16-bit lengths. -/
def urlRuleOf (anchor : UrlAnchor) (body : Bytes) (endAnchored exception : Bool)
    (options : Options) : RuleKind :=
  if body.isEmpty then .inactive .unsupported
  else if decide (65535 < body.length) ||
      options.domains.any (fun domains => decide (65535 < domains.length)) then
    .inactive .unsupported
  else
    .url
      { pattern := if options.matchCase then body else lower body
        action := action exception
        anchor := anchor
        endAnchored := endAnchored
        matchCase := options.matchCase
        party := options.party
        resourceTypes := options.resourceTypes
        domains := options.domains
        methods := options.methods
        client := options.client }

/-- What the domain tier rejected: a URL rule, or an inactive one when no
supported syntax expresses it. A `/regex/` literal is the latter. -/
def urlRule (pattern : Bytes) (exception : Bool) (options : Options) : RuleKind :=
  if decide (2 < pattern.length) && startsWith [ch '/'] pattern &&
      endsWith [ch '/'] pattern then
    .inactive .unsupported
  else
    let (anchor, rest) := splitAnchor pattern
    let (body, endAnchored) := splitEndAnchor rest
    urlRuleOf anchor body endAnchored exception options

def classify (pattern : Bytes) (exception : Bool) (options : Options) :
    LineOutcome :=
  if options.unsupported then .rules [.inactive .unsupported]
  else
    match domainRule pattern exception options with
    | .rule rule => .rules [.active rule]
    | .malformed => .error
    | .notADomainRule =>
      if pattern.any isAsciiWhitespace then .error
      else .rules [urlRule pattern exception options]

/-- What follows once comments and cosmetic rules are ruled out. -/
def parseRule (line : Bytes) : LineOutcome :=
  let exception := startsWith (lit "@@") line
  let body := if exception then line.drop 2 else line
  let (pattern, optionsStr) := splitOptions body
  match parseOptions optionsStr with
  | none => .error
  | some options => classify pattern exception options

def parseLine (line : Bytes) : LineOutcome :=
  let line := trim line
  match line with
  | [] => .skip
  | first :: _ =>
    if first == ch '!' || first == ch '[' then .skip
    else
      match (cosmeticMarkers.filterMap fun marker => findStr marker line).min? with
      | some at_ =>
        if (line.take at_).any isAsciiWhitespace then .error
        else .rules [.inactive .cosmetic]
      | none =>
        -- with cosmetic syntax ruled out, `#` opens a comment
        if first == ch '#' then .skip
        else parseRule line

def parse (text : Bytes) : ParsedRuleList :=
  collectLines .adblock parseLine text

end FastAdHunter.Rules.Adblock
