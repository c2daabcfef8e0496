import FastAdHunter.Rules.UrlTier.Pattern

/-!
# Index keys of patterns and URLs

A rule is filed under one key its pattern requires: a token that is bounded on
both sides, the first or the last bytes of one that is bounded on one side, or a
window of a literal run. A lookup derives the same kinds of keys from the URL.

A token is kept with the byte before it and the byte after it, which is all
that the source reads around its span.
-/

namespace FastAdHunter.Rules.Url

open Lib

/-- Shortest token worth filing a rule under. -/
def minTokenLen : Nat := 3

/-- A maximal run of token bytes with its neighbours. -/
structure Token where
  before : Option UInt8
  text : Bytes
  after : Option UInt8
  deriving DecidableEq

/-- Tokens of the rest of a text, given the token in progress and the byte
before it. -/
def tokensFrom (before : Option UInt8) (current : Bytes) : Bytes → List Token
  | [] => if current.isEmpty then [] else [⟨before, current, none⟩]
  | b :: s =>
    if isTokenByte b then tokensFrom before (current ++ [b]) s
    else if current.isEmpty then tokensFrom (some b) [] s
    else ⟨before, current, some b⟩ :: tokensFrom (some b) [] s

def tokens (s : Bytes) : List Token :=
  tokensFrom none [] s

/-- How a pattern's token relates to the URL token that must contain it: it is
the token, or begins it, or ends it, or is a window of the text. -/
inductive KeyKind where
  | exact
  | leading
  | trailing
  | ngram
  deriving DecidableEq

def KeyKind.seed : KeyKind → UInt64
  | .exact => 0xcbf29ce484222325
  | .leading => 0x9e3779b97f4a7c15
  | .trailing => 0x517cc1b727220a95
  | .ngram => 0xff51afd7ed558ccd

/-- FNV-1a over the bytes in lower case, seeded by the kind of key. -/
def hashKey (kind : KeyKind) (bytes : Bytes) : UInt64 :=
  bytes.foldl (fun h b => (h ^^^ (toLower b).toUInt64) * 0x100000001b3) kind.seed

/-- A window in lower case, packed. -/
def ngramWord (window : Bytes) : UInt32 :=
  window.foldl (fun word b => (word <<< 8) ||| (toLower b).toUInt32) 0

def ngramWordMask : UInt32 := 0xffffff

/-- The bit index of a window before it is cut to the filter's size. -/
def ngramFold (word : UInt32) : Nat :=
  (word ^^^ (word >>> 13)).toNat

/-- A window spread over the 64-bit keys. -/
def ngramHash (word : UInt32) : UInt64 :=
  let hash := (word.toUInt64 ^^^ KeyKind.ngram.seed) * 0xff51afd7ed558ccd
  (hash ^^^ (hash >>> 33)) * 0xc4ceb9fe1a85ec53

/-- The bounded keys of a pattern with the length of the token each comes
from. A `*` bounds nothing; an anchor at the pattern's edge does. -/
def indexKeys (pattern : Bytes) (anchor : UrlAnchor) (endAnchored : Bool) :
    List (KeyKind × Bytes × Nat) :=
  (tokens pattern).filterMap fun token =>
    let len := token.text.length
    if len < minTokenLen then none
    else
      let leftBounded := token.before.elim (anchor != .anywhere) (· != ch '*')
      let rightBounded := token.after.elim endAnchored (· != ch '*')
      match leftBounded, rightBounded with
      | true, true => some (.exact, token.text, len)
      | true, false => some (.leading, token.text.take minTokenLen, len)
      | false, true => some (.trailing, token.text.drop (len - minTokenLen), len)
      | false, false => none

/-- Every stretch of `n` consecutive bytes. -/
def windows (n : Nat) (s : Bytes) : List Bytes :=
  s.tails.filterMap fun t => if n ≤ t.length then some (t.take n) else none

/-- The windows of a pattern's literal runs with the length of the run. -/
def ngramKeys (pattern : Bytes) : List (UInt32 × Nat) :=
  (splitBy (fun b => b == ch '*' || b == ch '^') pattern).flatMap fun run =>
    (windows minTokenLen run).map fun window => (ngramWord window, run.length)

/-- The three probes for one token of the URL. -/
def probeKeys (token : Bytes) : List (KeyKind × Bytes) :=
  [(.exact, token), (.leading, token.take minTokenLen),
    (.trailing, token.drop (token.length - minTokenLen))]

/-- Roll a window one byte further. -/
def rollWord (word : UInt32) (b : UInt8) : UInt32 :=
  ((word <<< 8) ||| (toLower b).toUInt32) &&& ngramWordMask

end FastAdHunter.Rules.Url
