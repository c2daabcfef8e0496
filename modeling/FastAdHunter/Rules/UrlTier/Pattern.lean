import FastAdHunter.Rules.Types

/-!
# Matching one pattern against one URL

The matcher of the URL tier: literal bytes, `*` for any run, `^` for one
separator or the end of the URL. It is a loop with one backtrack point, entered
at every offset the anchor allows, under a work allowance that is charged for
each entry and for each widening of a `*`.

A position in the pattern or in the URL is the part that is still ahead of it.
-/

namespace FastAdHunter.Rules

open Lib

/-- Backstop allowance for a whole lookup. -/
def lookupStepCap : Nat := 8000000

/-- Work allowance for one rule against one URL. -/
def ruleStepCap (urlLen : Nat) : Nat :=
  urlLen * 2 + 64

/-- The work allowance of one lookup, and whether it ran out. -/
structure Budget where
  remaining : Nat
  floor : Nat
  exhausted : Bool
  deriving DecidableEq

namespace Budget

def new : Budget := ⟨lookupStepCap, 0, false⟩

/-- Re-arm the allowance of one rule. -/
def openRule (budget : Budget) (urlLen : Nat) : Budget :=
  { budget with floor := budget.remaining - ruleStepCap urlLen }

/-- Charge one attempted match position. -/
def spend (budget : Budget) : Bool × Budget :=
  if budget.remaining ≤ budget.floor then (false, { budget with exhausted := true })
  else (true, { budget with remaining := budget.remaining - 1 })

/-- What the current rule may still spend. -/
def allowance (budget : Budget) : Nat :=
  budget.remaining - budget.floor

end Budget

/-- A byte of a token; everything else delimits tokens. -/
def isTokenByte (b : UInt8) : Bool :=
  isAsciiAlphanumeric b || b == ch '_' || b == ch '%'

/-- The bytes that `^` stands for. -/
def isSeparator (b : UInt8) : Bool :=
  !(isAsciiAlphanumeric b || b == ch '_' || b == ch '-' || b == ch '.' || b == ch '%')

def byteMatches (patternByte textByte : UInt8) (matchCase : Bool) : Bool :=
  if matchCase then patternByte == textByte else patternByte == toLower textByte

/-- The text bytes the scan for a pattern byte stops at. -/
def isCandidate (patternByte : UInt8) (matchCase : Bool) (b : UInt8) : Bool :=
  if !matchCase && isAsciiLowercase patternByte then
    b == patternByte || b == toUpper patternByte
  else
    b == patternByte

/-- The text from the first byte that could match a literal of the pattern. -/
def findLiteral (text : Bytes) (patternByte : UInt8) (matchCase : Bool) :
    Option Bytes :=
  match text.dropWhile fun b => !isCandidate patternByte matchCase b with
  | [] => none
  | rest => some rest

lemma isCandidate_of_byteMatches (matchCase : Bool) (b : UInt8) :
    ∀ pb : UInt8, byteMatches pb b matchCase = true → isCandidate pb matchCase b = true := by
  cases matchCase
  · simp only [byteMatches]
    intro pb h
    have hpb : pb = toLower b := by simpa using h
    subst hpb
    revert b
    decide +kernel
  · intro pb h
    have hpb : pb = b := by simpa [byteMatches] using h
    simp [isCandidate, hpb]

/-- The pattern after the last `*`, and the text it was last tried at. -/
abbrev Star := Option (Bytes × Bytes)

/-- What one turn of the loop does before it has to widen a `*`. -/
inductive Progress where
  | accept
  | go (pattern text : Bytes) (star : Star)
  | stuck
  deriving DecidableEq

def matchStep (endAnchored matchCase : Bool) (pattern text : Bytes) (star : Star) :
    Progress :=
  match pattern with
  | [] => if !endAnchored || text.isEmpty then .accept else .stuck
  | pb :: rest =>
    if pb == ch '*' then .go rest text (some (rest, text))
    else if pb == ch '^' then
      match text with
      | [] => .go rest [] star
      | tb :: text' => if isSeparator tb then .go rest text' star else .stuck
    else
      match text with
      | [] => .stuck
      | tb :: text' =>
        if byteMatches pb tb matchCase then .go rest text' star else .stuck

/-- Where a `*` resumes: before a literal, only where the literal occurs. -/
def resume (matchCase : Bool) (after next : Bytes) : Option Bytes :=
  match after with
  | literal :: _ =>
    if literal != ch '*' && literal != ch '^' then findLiteral next literal matchCase
    else some next
  | [] => some next

/-- Widen the last `*` by at least one byte, against the allowance. -/
def widen (matchCase : Bool) (star : Star) (budget : Budget) :
    Option (Bytes × Bytes) × Budget :=
  match star with
  | none => (none, budget)
  | some (_, []) => (none, budget)
  | some (after, _ :: next) =>
    match budget.spend with
    | (false, budget) => (none, budget)
    | (true, budget) => ((resume matchCase after next).map fun next => (after, next), budget)

/-- The loop of `match_from`, one turn a unit of fuel. -/
def matchLoop (endAnchored matchCase : Bool) :
    Nat → Bytes → Bytes → Star → Budget → Bool × Budget
  | 0, _, _, _, budget => (false, budget)
  | fuel + 1, pattern, text, star, budget =>
    match matchStep endAnchored matchCase pattern text star with
    | .accept => (true, budget)
    | .go pattern text star => matchLoop endAnchored matchCase fuel pattern text star budget
    | .stuck =>
      match widen matchCase star budget with
      | (none, budget) => (false, budget)
      | (some (after, next), budget) =>
        matchLoop endAnchored matchCase fuel after next (some (after, next)) budget

/-- Match the pattern at the beginning of `text`. -/
def matchFrom (pattern text : Bytes) (endAnchored matchCase : Bool) (budget : Budget) :
    Bool × Budget :=
  match budget.spend with
  | (false, budget) => (false, budget)
  | (true, budget) =>
    matchLoop endAnchored matchCase ((text.length + 1) * (pattern.length + 1)) pattern text
      none budget

/-- Enter the matcher at each start in turn, until one succeeds. -/
def tryStarts (pattern : Bytes) (endAnchored matchCase : Bool) :
    List Bytes → Budget → Bool × Budget
  | [], budget => (false, budget)
  | start :: starts, budget =>
    match matchFrom pattern start endAnchored matchCase budget with
    | (true, budget) => (true, budget)
    | (false, budget) => tryStarts pattern endAnchored matchCase starts budget

/-- Where the host starts in an absolute URL, and how long it is. Without a
scheme the whole text is taken. -/
def hostSpan (url : Bytes) : Nat × Nat :=
  let start := (findStr (lit "://") url).elim 0 (· + 3)
  let rest := url.drop start
  let len := (findByte (fun b => b == ch '/' || b == ch '?' || b == ch '#') rest).getD
    rest.length
  (start, start + len)

/-- What follows each dot among the first `n` bytes. -/
def afterHostDots : Nat → Bytes → List Bytes
  | 0, _ => []
  | _ + 1, [] => []
  | n + 1, b :: s => if b == ch '.' then s :: afterHostDots n s else afterHostDots n s

def labelStarts (url : Bytes) (hostStart hostEnd : Nat) : List Bytes :=
  url.drop hostStart :: afterHostDots (hostEnd - hostStart) (url.drop hostStart)

/-- The starts of an unanchored pattern: only where its first element could
match. -/
def anywhereStarts (url : Bytes) (first : UInt8) (matchCase : Bool) : List Bytes :=
  if first == ch '*' then [url]
  else if first == ch '^' then url.tails.filter fun t => t.head?.all isSeparator
  else url.tails.filter fun t => t.head?.any (isCandidate first matchCase)

/-- The pattern part of `check`. -/
def matchPattern (anchor : UrlAnchor) (pattern url : Bytes) (hostStart hostEnd : Nat)
    (endAnchored matchCase : Bool) (budget : Budget) : Bool × Budget :=
  match anchor with
  | .start => tryStarts pattern endAnchored matchCase [url] budget
  | .domain =>
    tryStarts pattern endAnchored matchCase (labelStarts url hostStart hostEnd) budget
  | .anywhere =>
    match pattern with
    | [] => (true, budget)
    | first :: _ =>
      tryStarts pattern endAnchored matchCase (anywhereStarts url first matchCase) budget

end FastAdHunter.Rules
