import FastAdHunter.Lib.Segments
import FastAdHunter.Rules.Domain

/-!
# DNS messages

The parts of a decoded message the pipeline reads or writes, and what it takes
from the wire library: reading and writing packets, the text of a name, and the
name in a text.
-/

namespace FastAdHunter.Dns

open Lib Net Rules

/-- A name as it travels: its labels, none of them empty. -/
structure Name where
  labels : List Bytes
  nonempty : ∀ label ∈ labels, label ≠ []
  deriving DecidableEq

def Name.root : Name := ⟨[], by simp⟩

abbrev RecordType := UInt16

abbrev DnsClass := UInt16

def RecordType.a : RecordType := 1

def RecordType.aaaa : RecordType := 28

/-- One question. -/
structure WireQuery where
  name : Name
  queryType : RecordType
  queryClass : DnsClass
  deriving DecidableEq

inductive MessageType where
  | query
  | response
  deriving DecidableEq

inductive OpCode where
  | query
  | other (code : UInt8)
  deriving DecidableEq

inductive ResponseCode where
  | noError | formErr | servFail | nxDomain | notImp | refused
  | other (code : UInt16)
  deriving DecidableEq

inductive RData where
  | a (addr : Ipv4Addr)
  | aaaa (addr : Ipv6Addr)
  | other (type : RecordType) (data : Bytes)
  deriving DecidableEq

structure Record where
  name : Name
  ttl : UInt32
  data : RData
  deriving DecidableEq

structure Edns where
  maxPayload : UInt16
  dnssecOk : Bool
  deriving DecidableEq

structure Metadata where
  id : UInt16
  messageType : MessageType
  opCode : OpCode
  truncation : Bool
  recursionDesired : Bool
  recursionAvailable : Bool
  authenticData : Bool
  responseCode : ResponseCode
  deriving DecidableEq

structure Message where
  metadata : Metadata
  queries : List WireQuery
  answers : List Record
  authorities : List Record
  additionals : List Record
  edns : Option Edns
  deriving DecidableEq

/-- An empty reply. -/
def Message.response (id : UInt16) (opCode : OpCode) : Message where
  metadata := {
    id := id
    messageType := .response
    opCode := opCode
    truncation := false
    recursionDesired := false
    recursionAvailable := false
    authenticData := false
    responseCode := .noError }
  queries := []
  answers := []
  authorities := []
  additionals := []
  edns := none

/-- An empty question message. -/
def Message.query (id : UInt16) : Message :=
  let reply := Message.response id .query
  { reply with metadata := { reply.metadata with messageType := .query } }

def Message.addQuery (message : Message) (query : WireQuery) : Message :=
  { message with queries := message.queries ++ [query] }

/-- The record types the rule engine knows by name. -/
def toFahQueryType (recordType : RecordType) : QueryType :=
  if recordType = 1 then .a
  else if recordType = 28 then .aaaa
  else if recordType = 65 then .https
  else if recordType = 64 then .svcb
  else if recordType = 5 then .cname
  else if recordType = 15 then .mx
  else if recordType = 16 then .txt
  else if recordType = 2 then .ns
  else if recordType = 12 then .ptr
  else if recordType = 33 then .srv
  else if recordType = 6 then .soa
  else if recordType = 257 then .caa
  else if recordType = 43 then .ds
  else if recordType = 48 then .dnskey
  else if recordType = 35 then .naptr
  else .other recordType

section Library

/-- What the pipeline uses of the wire library. A label is shown as one label;
a text without an escape and without a character outside ASCII is the label
itself, which then has no dot in it: everything else is escaped, or decoded
from its `xn--` form. -/
structure WireLibrary where
  fromVec : Bytes → Option Message
  toVec : Message → Option Bytes
  truncate : Message → Message
  showLabel : Bytes → Bytes
  fromAscii : Bytes → Option Name
  oneLabel : ∀ label, ch '.' ∉ label → ch '.' ∉ showLabel label
  verbatim : ∀ label, (∀ b ∈ showLabel label, isDomainByte b = true) →
    showLabel label = label ∧ ch '.' ∉ label

variable (lib : WireLibrary)

/-- The text of a name: its labels as they are shown, joined and ended by a
dot. -/
def domainOf (name : Name) : Bytes :=
  joinBy (ch '.') (name.labels.map lib.showLabel) ++ [ch '.']

end Library

end FastAdHunter.Dns
