import FastAdHunter.Net.Text

/-!
# Requests on the wire

The head of a request as the HTTP library hands it over: a method, a target and
the header fields in order, their names in lower case. The body passes through
untouched and is left out. What the library decides by its own grammar, such as
which texts are an authority, is a parameter.
-/

namespace FastAdHunter.Http

open Lib Net

/-- The parts of the HTTP library that the proxies call. The text of a header
value is the value. -/
structure HttpLibrary where
  validAuthority : Bytes → Bool
  headerName : Bytes → Option Bytes
  headerText : Bytes → Option Bytes
  verbatim : ∀ value text, headerText value = some text → text = value

/-- The part of an authority after its user information. -/
def hostPort (authority : Bytes) : Bytes :=
  (rsplitOnce (ch '@') authority).elim authority Prod.snd

/-- `Authority::host`: without user information and port; a bracketed address
keeps its brackets. -/
def authorityHost (authority : Bytes) : Bytes :=
  let text := hostPort authority
  match text with
  | [] => []
  | b :: _ =>
    if b = ch '[' then text.take ((findByte (· == ch ']') text).getD 0 + 1)
    else text.takeWhile (· != ch ':')

/-- `Authority::port_u16`: what follows the last colon, if it is a number of 16
bits. -/
def authorityPort (authority : Bytes) : Option UInt16 :=
  (rsplitOnce (ch ':') authority).bind fun parts =>
    (parseUnsigned 65536 parts.2).map UInt16.ofNat

/-- The target of a request. -/
structure Uri where
  authority : Option Bytes
  pathAndQuery : Option Bytes
  deriving DecidableEq

/-- The path and the query, or the root. -/
def Uri.pathOrRoot (uri : Uri) : Bytes :=
  uri.pathAndQuery.getD (lit "/")

/-- Header fields in order; a name can occur more than once. -/
abbrev HeaderMap := List (Bytes × Bytes)

namespace HeaderMap

def getAll (headers : HeaderMap) (name : Bytes) : List Bytes :=
  (headers.filter fun field => field.1 == name).map Prod.snd

def get (headers : HeaderMap) (name : Bytes) : Option Bytes :=
  (headers.getAll name).head?

def remove (headers : HeaderMap) (name : Bytes) : HeaderMap :=
  headers.filter fun field => field.1 != name

def append (headers : HeaderMap) (name value : Bytes) : HeaderMap :=
  List.append headers [(name, value)]

lemma getAll_remove_of_ne (h : other ≠ name) (headers : HeaderMap) :
    getAll (remove headers other) name = getAll headers name := by
  simp only [getAll, remove, List.filter_filter]
  congr 1
  apply List.filter_congr
  intro field _
  by_cases hname : field.1 = name
  · simp [hname, Ne.symm h]
  · simp [hname]

end HeaderMap

structure Request where
  method : Bytes
  uri : Uri
  headers : HeaderMap
  deriving DecidableEq

def hostHeader : Bytes := lit "host"

end FastAdHunter.Http
