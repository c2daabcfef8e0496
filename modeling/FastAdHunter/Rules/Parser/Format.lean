import FastAdHunter.Rules.Types

/-!
# Lines and formats

The format of a list is detected once, by a vote over its first content lines.
The parsers of the three formats share one driver, `collectLines`, and differ
in what one line contributes.
-/

namespace FastAdHunter.Rules

open Lib

/-- What one line of a list contributes. -/
inductive LineOutcome where
  | skip
  | error
  | rules (rules : List RuleKind)
  deriving DecidableEq

/-- Add the outcome of one line to the rules and the failures so far. -/
def collectStep (parseLine : Bytes → LineOutcome)
    (acc : List RuleKind × ParseErrorLog) (entry : Bytes × Nat) :
    List RuleKind × ParseErrorLog :=
  match parseLine entry.1 with
  | .skip => acc
  | .error => (acc.1, acc.2.record entry.2)
  | .rules rules => (acc.1 ++ rules, acc.2)

/-- Run a line parser over a text: the rules in order and the failed lines. -/
def collectLines (format : RuleFormat) (parseLine : Bytes → LineOutcome)
    (text : Bytes) : ParsedRuleList :=
  let (rules, errors) :=
    (lines text).zipIdx.foldl (collectStep parseLine) ([], .empty)
  ⟨format, rules, errors.count, errors.lines⟩

def sampleLines : Nat := 200

/-- A line no parser reads: blank, a comment or a section header. -/
def isIgnorable (line : Bytes) : Bool :=
  match line with
  | [] => true
  | b :: _ => b == ch '#' || b == ch '!' || b == ch '['

def isAsciiHexdigit (b : UInt8) : Bool :=
  isAsciiDigit b || (97 ≤ b && b ≤ 102) || (65 ≤ b && b ≤ 70)

/-- Loose shape check for the address that opens a hosts line. -/
def looksLikeIp (token : Bytes) : Bool :=
  if token.contains (ch '.') && !token.contains (ch ':') then
    let parts := splitBy (· == ch '.') token
    parts.all (fun part => !part.isEmpty && part.all isAsciiDigit) &&
      decide (2 ≤ parts.length)
  else if token.contains (ch ':') then
    token.all fun b => isAsciiHexdigit b || b == ch ':'
  else false

def looksLikeAdblock (line : Bytes) : Bool :=
  startsWith (lit "||") line || startsWith (lit "@@") line ||
    startsWith [ch '|'] line || endsWith [ch '|'] line ||
    (findStr (lit "##") line).isSome || (findStr (lit "#@#") line).isSome ||
    (findStr (lit "#?#") line).isSome || (findStr (lit "#$#") line).isSome ||
    line.contains (ch '^') || line.contains (ch '/') ||
    ((splitBy (· == ch '$') line).drop 1).any fun option =>
      match option with
      | b :: _ => isAsciiAlphabetic b || b == ch '~'
      | [] => false

def looksLikeBareDomain (line : Bytes) : Bool :=
  !line.isEmpty &&
    line.all fun b =>
      isAsciiAlphanumeric b || b == ch '.' || b == ch '-' || b == ch '_'

/-- The format a content line looks like. -/
def classifyLine (line : Bytes) : Option RuleFormat :=
  let hosts :=
    match splitWhitespace line with
    | first :: _ :: _ => looksLikeIp first
    | _ => false
  if hosts then some .hosts
  else if looksLikeAdblock line then some .adblock
  else if looksLikeBareDomain line then some .plainDomainList
  else none

/-- The votes of the first content lines: hosts, adblock, plain domains. -/
def countVotes (sample : List Bytes) : Nat × Nat × Nat :=
  let votes := sample.map classifyLine
  (votes.count (some .hosts), votes.count (some .adblock),
    votes.count (some .plainDomainList))

/-- A tie resolves to the plain domain list. -/
def detectFormat (text : Bytes) : RuleFormat :=
  let content := ((lines text).map trim).filter fun line => !isIgnorable line
  let (hosts, adblock, domains) := countVotes (content.take sampleLines)
  if adblock < hosts ∧ domains < hosts then .hosts
  else if domains < adblock ∧ hosts < adblock then .adblock
  else .plainDomainList

end FastAdHunter.Rules
