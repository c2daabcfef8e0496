import FastAdHunter.Http.Claim
import FastAdHunter.Rules.Types

/-!
# From a request head to the rule engine's request

The rule engine sees pure data: the whole URL, the host without its port, the
kind of request and the host of the document. This file derives each of them
from the head, as the proxies do before they judge.
-/

namespace FastAdHunter.Http

open Lib Net Rules

section Hosts

/-- An authority without its port. A bracket ends an address literal; otherwise
one colon with digits after it is a port, and a bare IPv6 address, which has more
colons, is left alone. -/
def withoutPort (authority : Bytes) : Bytes :=
  match rsplitOnce (ch ']') authority with
  | some (front, _) => unbracket (front ++ [ch ']'])
  | none =>
    match rsplitOnce (ch ':') authority with
    | some (host, port) =>
      if !port.isEmpty && port.all isAsciiDigit && !host.contains (ch ':') then host
      else authority
    | none => authority

def requestHost (claimHost : Bytes) : Bytes :=
  withoutPort claimHost

/-- What follows the first occurrence of a text, or everything. -/
def afterText (p s : Bytes) : Bytes :=
  (findStr p s).elim s fun i => s.drop (i + p.length)

/-- The document host that a `Referer` names. -/
def refererHost (referer : Bytes) : Option Bytes :=
  let afterScheme := afterText (lit "://") referer
  let authority := afterScheme.takeWhile fun b => b != ch '/' && b != ch '?' && b != ch '#'
  let authority := (rsplitOnce (ch '@') authority).elim authority Prod.snd
  let host := withoutPort authority
  if host.isEmpty then none else some host

variable (lib : HttpLibrary)

def headerString (headers : HeaderMap) (name : Bytes) : Option Bytes :=
  (headers.get name).bind lib.headerText

def documentHost (headers : HeaderMap) : Option Bytes :=
  (headerString lib headers (lit "referer")).bind refererHost

end Hosts

section Kind

/-- The destinations a browser states, by kind of request. -/
def fetchDestinations : List (List Bytes × ResourceType) :=
  [([lit "document"], .document),
    ([lit "iframe", lit "frame"], .subdocument),
    ([lit "script", lit "serviceworker", lit "sharedworker", lit "worker"], .script),
    ([lit "style"], .stylesheet),
    ([lit "image"], .image),
    ([lit "font"], .font),
    ([lit "audio", lit "video", lit "track"], .media),
    ([lit "empty"], .xmlHttpRequest),
    ([lit "object", lit "embed"], .object),
    ([lit "report"], .ping),
    ([lit "manifest", lit "paintworklet", lit "audioworklet", lit "xslt"], .other)]

/-- File extensions that name a kind of request. -/
def extensions : List (List Bytes × ResourceType) :=
  [([lit "js", lit "mjs"], .script),
    ([lit "css"], .stylesheet),
    ([lit "png", lit "jpg", lit "jpeg", lit "gif", lit "webp", lit "svg", lit "ico", lit "bmp",
      lit "avif"], .image),
    ([lit "woff", lit "woff2", lit "ttf", lit "otf", lit "eot"], .font),
    ([lit "mp3", lit "mp4", lit "webm", lit "ogg", lit "wav", lit "m4a", lit "mov", lit "m3u8"],
      .media),
    ([lit "html", lit "htm"], .document),
    ([lit "json"], .xmlHttpRequest)]

def kindNamed (table : List (List Bytes × ResourceType)) (name : Bytes) : Option ResourceType :=
  (table.find? fun entry => entry.1.contains name).map Prod.snd

variable (lib : HttpLibrary)

def fromSecFetchDest (headers : HeaderMap) : Option ResourceType :=
  (headerString lib headers (lit "sec-fetch-dest")).bind fun value =>
    kindNamed fetchDestinations (trim value)

/-- The kind a media type stands for, where it is unambiguous. -/
def mediaKind (kind subtype : Bytes) : Option ResourceType :=
  if kind = lit "image" then some .image
  else if kind = lit "font" then some .font
  else if kind = lit "audio" ∨ kind = lit "video" then some .media
  else if kind = lit "text" ∧ subtype = lit "css" then some .stylesheet
  else if (kind = lit "text" ∨ kind = lit "application") ∧ subtype = lit "javascript" then
    some .script
  else if (kind = lit "text" ∧ subtype = lit "html") ∨
      (kind = lit "application" ∧ subtype = lit "xhtml+xml") then some .document
  else none

/-- `Accept` is read only by its first type. -/
def fromAccept (headers : HeaderMap) : Option ResourceType := do
  let value ← headerString lib headers (lit "accept")
  let first := trim ((value.takeWhile (· != ch ',')).takeWhile (· != ch ';'))
  let (kind, subtype) ← splitOnce (ch '/') first
  mediaKind kind subtype

/-- The path of a target, without its query. -/
def Uri.path (uri : Uri) : Bytes :=
  uri.pathOrRoot.takeWhile (· != ch '?')

def fromExtension (path : Bytes) : ResourceType :=
  let file := (rsplitOnce (ch '/') path).elim path Prod.snd
  match rsplitOnce (ch '.') file with
  | none => .unknown
  | some (_, extension) =>
    if extension.isEmpty || decide (8 < extension.length) then .unknown
    else (kindNamed extensions (lower extension)).getD .unknown

/-- What the request is fetching: as the browser states it, as it prefers it, and
last by the extension. -/
def resourceType (request : Request) : ResourceType :=
  (fromSecFetchDest lib request.headers).getD
    ((fromAccept lib request.headers).getD (fromExtension request.uri.path))

end Kind

/-- The URL that patterns are matched against. The port stays in it, since a
pattern can rely on the colon. -/
def absoluteUrl (scheme : Bytes) (request : Request) (host : Bytes) (port : Option UInt16) :
    Bytes :=
  scheme ++ lit "://" ++ host ++
    port.elim [] (fun port => ch ':' :: showRadix 10 port.toNat) ++ request.uri.pathOrRoot

end FastAdHunter.Http
