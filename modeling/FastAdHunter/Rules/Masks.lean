import FastAdHunter.Rules.Types

/-!
# Type masks

`$dnstype` restricts a rule to DNS record types, `$script` and its siblings to
kinds of requests. Both become a mask with one bit a type; negation is folded
into the mask when the rule is compiled. A record type outside the table has no
bit, and neither has a request of unknown kind.
-/

namespace FastAdHunter.Rules

open Lib

/-- The record types with a bit; the position is the bit. -/
def rrtypes : List Bytes :=
  [lit "A", lit "AAAA", lit "HTTPS", lit "SVCB", lit "CNAME", lit "MX",
    lit "TXT", lit "NS", lit "PTR", lit "SRV", lit "SOA", lit "CAA", lit "DS",
    lit "DNSKEY", lit "NAPTR"]

def rrtypeBit (name : Bytes) : UInt32 :=
  match rrtypes.findIdx? (eqIgnoreAsciiCase name) with
  | some i => 1 <<< UInt32.ofNat i
  | none => 0

def knownTypesMask : UInt32 := 0x7fff

/-- The position of a question's type in `rrtypes`. -/
def QueryType.position : QueryType → Option Nat
  | .a => some 0
  | .aaaa => some 1
  | .https => some 2
  | .svcb => some 3
  | .cname => some 4
  | .mx => some 5
  | .txt => some 6
  | .ns => some 7
  | .ptr => some 8
  | .srv => some 9
  | .soa => some 10
  | .caa => some 11
  | .ds => some 12
  | .dnskey => some 13
  | .naptr => some 14
  | .other _ => none

def qtypeBit (qtype : QueryType) : UInt32 :=
  match qtype.position with
  | some i => 1 <<< UInt32.ofNat i
  | none => 0

/-- The positive and the negated bits after one more token. -/
def dnstypeStep (acc : UInt32 × UInt32) (piece : Bytes) : UInt32 × UInt32 :=
  let token := trim piece
  match stripPrefix [ch '~'] token with
  | some name => (acc.1, acc.2 ||| rrtypeBit (trim name))
  | none =>
    if token.isEmpty then acc
    else (acc.1 ||| rrtypeBit token, acc.2)

/-- `A|~AAAA`, with commas as good as bars. A purely negated value subtracts
from all known types. -/
def parseDnstypeMask (raw : Bytes) : UInt32 :=
  let (positive, negated) :=
    (splitBy (fun b => b == ch '|' || b == ch ',') raw).foldl dnstypeStep (0, 0)
  if positive == 0 && negated != 0 then knownTypesMask &&& ~~~negated
  else positive &&& ~~~negated

/-- The kinds of request with their option names; the position is the bit. -/
def resourceTypes : List (ResourceType × List Bytes) :=
  [(.document, [lit "document", lit "doc"]),
    (.subdocument, [lit "subdocument", lit "frame"]),
    (.script, [lit "script"]),
    (.stylesheet, [lit "stylesheet", lit "css"]),
    (.image, [lit "image", lit "img"]),
    (.font, [lit "font"]),
    (.media, [lit "media"]),
    (.xmlHttpRequest, [lit "xmlhttprequest", lit "xhr"]),
    (.webSocket, [lit "websocket"]),
    (.ping, [lit "ping", lit "beacon"]),
    (.object, [lit "object"]),
    (.other, [lit "other"])]

/-- Every bit an option name can have. -/
def allTypes : UInt16 := 0xfff

/-- The bit for an option name, or `none` when it names no kind of request. -/
def bitForOption (name : Bytes) : Option UInt16 :=
  (resourceTypes.findIdx? fun entry => entry.2.any (eqIgnoreAsciiCase name)).map
    fun i => 1 <<< UInt16.ofNat i

def bitForRequest (kind : ResourceType) : UInt16 :=
  if kind = .unknown then 0
  else
    match resourceTypes.findIdx? (fun entry => entry.1 == kind) with
    | some i => 1 <<< UInt16.ofNat i
    | none => 0

end FastAdHunter.Rules
