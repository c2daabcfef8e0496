import FastAdHunter.Rules.Matcher

/-!
# Policies

A policy sees a subset of the configured lists; the default policy, at position
zero, sees all of them. One ruleset is compiled for all policies, and each rule
carries a mask with a bit for every policy that sees it, by position. Which
policy judges a client is read off a snapshot of the assignments that are active
at one instant.
-/

namespace FastAdHunter.Rules

open Lib Net

/-- A weekly window in minutes of the local day; one that ends before it starts
belongs to the day it opened on. -/
structure Schedule where
  days : UInt8
  start : UInt16
  stop : UInt16
  deriving DecidableEq

structure LocalTime where
  weekday : UInt8
  minuteOfDay : UInt16
  deriving DecidableEq

def Schedule.isOn (schedule : Schedule) (day : UInt8) : Bool :=
  schedule.days &&& (1 <<< (day % 7)) != 0

def Schedule.contains (schedule : Schedule) (time : LocalTime) : Bool :=
  if schedule.start < schedule.stop then
    schedule.isOn time.weekday && decide (schedule.start ≤ time.minuteOfDay) &&
      decide (time.minuteOfDay < schedule.stop)
  else
    (schedule.isOn time.weekday && decide (schedule.start ≤ time.minuteOfDay)) ||
      (schedule.isOn ((time.weekday + 6) % 7) && decide (time.minuteOfDay < schedule.stop))

section Sets

/-- A policy; without a list of its own it sees every enabled list. -/
structure CompiledPolicy where
  id : Bytes
  lists : Option (List Bytes)
  deriving DecidableEq

structure CompiledAssignment where
  client : ClientSelector
  schedule : Option Schedule
  policy : PolicyId
  deriving DecidableEq

/-- The compiled policies, with the assignments the most specific first and the
local time of the configured zone. -/
structure PolicySet where
  localTime : Int → LocalTime
  policies : List CompiledPolicy
  assignments : List CompiledAssignment

namespace PolicySet

def isDefaultOnly (set : PolicySet) : Bool :=
  decide (set.policies.length ≤ 1)

/-- The bit of the policy at a position. -/
def bitAt (index : Nat) : UInt16 :=
  PolicyId.bit ⟨UInt8.ofNat index⟩

/-- Every policy bit that exists. -/
def policyUniverse (set : PolicySet) : UInt16 :=
  if set.isDefaultOnly then allPolicies
  else (List.range set.policies.length).foldl (fun acc index => acc ||| bitAt index) 0

def maskForList (set : PolicySet) (list : Bytes) : UInt16 :=
  if set.isDefaultOnly then allPolicies
  else
    (set.policies.zipIdx.drop 1).foldl
      (fun mask entry =>
        if entry.1.lists.elim true (·.contains list) then mask ||| bitAt entry.2 else mask)
      PolicyId.default.bit

end PolicySet

end Sets

/-- The clients that an assignment stands for; a name is resolved to addresses. -/
def CompiledAssignment.active (assignment : CompiledAssignment) (named : List (IpAddr × Bytes)) :
    List (ClientSelector × PolicyId) :=
  match assignment.client with
  | .name wanted =>
    (named.filter fun entry => eqIgnoreAsciiCase entry.2 wanted).map fun entry =>
      (.ip entry.1, assignment.policy)
  | selector => [(selector, assignment.policy)]

/-- The assignments in force at one instant; of two names for one address the
later counts. -/
def PolicySet.activeAt (set : PolicySet) (now : Int) (named : List (IpAddr × Bytes)) :
    ActivePolicies where
  assignments := (set.assignments.filter fun assignment =>
    assignment.schedule.all (·.contains (set.localTime now))).flatMap (·.active named)
  names := named.reverse

end FastAdHunter.Rules
