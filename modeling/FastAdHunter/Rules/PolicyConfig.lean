import FastAdHunter.Lib.FirstMatch
import FastAdHunter.Rules.Policy

/-!
# Policies from the configuration

The policy set is compiled from texts: client selectors, days and times. Its
assignments are sorted the most specific first, and among equals in the order of
the file. The timezone is a parameter: what reads its text gives the local time of
every instant.
-/

namespace FastAdHunter.Rules

open Lib Net List

/-- A client of a policy, with the days and times it is assigned at. -/
structure AssignmentConfig where
  client : Bytes
  days : Option Bytes
  start : Option Bytes
  stop : Option Bytes
  deriving DecidableEq

structure PolicyConfig where
  id : Bytes
  name : Option Bytes
  lists : Option (List Bytes)
  blockingMode : Option Bytes
  assignments : List AssignmentConfig
  deriving DecidableEq

inductive ScheduleError where
  | unknownDay (name : Bytes)
  | emptyDay
  | notATime (spec : Bytes)
  | hour (spec : Bytes)
  | minute (spec : Bytes)
  | outOfDay (spec : Bytes)
  deriving DecidableEq

def dayNames : List Bytes :=
  [lit "sun", lit "mon", lit "tue", lit "wed", lit "thu", lit "fri", lit "sat"]

/-- A day by its short name or a longer form of it. -/
def parseDay (name : Bytes) : Except ScheduleError Nat :=
  let name := lower (trim name)
  match dayNames.findIdx? fun short => startsWith short name && decide (name.length ≤ 9) with
  | some index => .ok index
  | none => .error (.unknownDay name)

def allDays : UInt8 := 0b01111111

/-- The days from one through another, wrapping at the end of the week. -/
def markDays (mask : UInt8) (first last : Nat) : UInt8 :=
  (List.range ((last + 7 - first) % 7 + 1)).foldl
    (fun mask step => mask ||| 1 <<< UInt8.ofNat ((first + step) % 7)) mask

def parseDayPart (mask : UInt8) (part : Bytes) : Except ScheduleError UInt8 := do
  let part := trim part
  if part.isEmpty then throw .emptyDay
  match splitOnce (ch '-') part with
  | some (first, last) => do
    let first ← parseDay first
    let last ← parseDay last
    pure (markDays mask first last)
  | none => do
    let day ← parseDay part
    pure (mask ||| 1 <<< UInt8.ofNat day)

/-- The days of a schedule as a mask, Sunday in the lowest bit. -/
def parseDays (spec : Bytes) : Except ScheduleError UInt8 :=
  let spec := trim spec
  if eqIgnoreAsciiCase spec (lit "daily") || eqIgnoreAsciiCase spec (lit "all") then .ok allDays
  else (splitBy (· == ch ',') spec).foldlM parseDayPart 0

/-- `HH:MM` as minutes of the day; `24:00` is the midnight that ends it. -/
def parseTimeOfDay (spec : Bytes) : Except ScheduleError UInt16 :=
  let spec := trim spec
  match splitOnce (ch ':') spec with
  | none => .error (.notATime spec)
  | some (hours, minutes) =>
    match parseUnsigned 65536 (trim hours) with
    | none => .error (.hour spec)
    | some hours =>
      match parseUnsigned 65536 (trim minutes) with
      | none => .error (.minute spec)
      | some minutes =>
        if 59 < minutes ∨ 24 < hours ∨ (hours = 24 ∧ 0 < minutes) then .error (.outOfDay spec)
        else .ok (UInt16.ofNat ((hours * 60 + minutes) % 1440))

inductive PolicyError where
  | timezone (spec : Bytes)
  | tooMany (max got : Nat)
  | selector (policy client : Bytes)
  | schedule (policy : Bytes) (error : ScheduleError)
  | halfSchedule (policy : Bytes)
  deriving DecidableEq

/-- Names are the most specific, then addresses, then the longest networks. -/
def ClientSelector.specificity : ClientSelector → Nat
  | .name _ => 1000
  | .ip _ => 900
  | .network _ prefixLen => prefixLen

/-- The schedule of an assignment; days without times are whole days. -/
def compileSchedule (config : AssignmentConfig) : Except ScheduleError (Option (Option Schedule)) :=
  match config.start, config.stop with
  | some start, some stop => do
    let days ← match config.days with
      | some days => parseDays days
      | none => pure allDays
    pure (some (some ⟨days, ← parseTimeOfDay start, ← parseTimeOfDay stop⟩))
  | none, none =>
    match config.days with
    | some days => do pure (some (some ⟨← parseDays days, 0, 1440⟩))
    | none => pure (some none)
  -- one of the two alone is no schedule
  | _, _ => pure none

def compileAssignment (policy : Bytes) (config : AssignmentConfig) :
    Except PolicyError (ClientSelector × Option Schedule) :=
  match parseSelector config.client with
  | none => .error (.selector policy config.client)
  | some client =>
    match compileSchedule config with
    | .error error => .error (.schedule policy error)
    | .ok none => .error (.halfSchedule policy)
    | .ok (some schedule) => .ok (client, schedule)

/-- The assignments of one policy, for its position. -/
def compileAssignments (policy : Bytes) (id : PolicyId) :
    List AssignmentConfig → Except PolicyError (List CompiledAssignment)
  | [] => .ok []
  | config :: rest => do
    let (client, schedule) ← compileAssignment policy config
    let more ← compileAssignments policy id rest
    pure (⟨client, schedule, id⟩ :: more)

/-- The position of a configured policy; the default one has position zero. -/
def positionId (index : Nat) : PolicyId := ⟨UInt8.ofNat (index + 1)⟩

/-- The assignments of the policies from a position on, in the order of the file. -/
def compilePolicies : Nat → List PolicyConfig → Except PolicyError (List CompiledAssignment)
  | _, [] => .ok []
  | index, config :: rest => do
    let assignments ← compileAssignments config.id (positionId index) config.assignments
    let more ← compilePolicies (index + 1) rest
    pure (assignments ++ more)

def defaultPolicy : CompiledPolicy := ⟨lit "default", none⟩

def maxPolicies : Nat := 16

def PolicySet.fromConfig (zone : Bytes → Option (Int → LocalTime)) (timezone : Bytes)
    (policies : List PolicyConfig) : Except PolicyError PolicySet :=
  match zone timezone with
  | none => .error (.timezone timezone)
  | some localTime =>
    if maxPolicies < policies.length + 1 then .error (.tooMany maxPolicies (policies.length + 1))
    else do
      let assignments ← compilePolicies 0 policies
      pure {
        localTime := localTime
        policies := defaultPolicy :: policies.map fun config => ⟨config.id, config.lists⟩
        assignments :=
          greatestFirst (fun assignment => assignment.client.specificity) assignments }

def CompiledAssignment.applies (assignment : CompiledAssignment) (ip : IpAddr)
    (name : Option Bytes) (time : LocalTime) : Bool :=
  assignment.client.matches ip name && assignment.schedule.all (·.contains time)

/-- Which policy judges a client: the first assignment that applies, and the
default one when there is none. -/
def PolicySet.resolve (set : PolicySet) (ip : IpAddr) (name : Option Bytes) (now : Int) :
    PolicyId :=
  if set.assignments.isEmpty then .default
  else
    (set.assignments.find? fun assignment =>
      assignment.applies ip name (set.localTime now)).elim .default (·.policy)

def PolicyConfig.compiled (config : PolicyConfig) (index : Nat) : List CompiledAssignment :=
  config.assignments.filterMap fun assignment =>
    (compileAssignment config.id assignment).toOption.map fun compiled =>
      ⟨compiled.1, compiled.2, positionId index⟩

/-- The assignments that compile, in the order of the file. -/
def compiledFrom : Nat → List PolicyConfig → List CompiledAssignment
  | _, [] => []
  | index, config :: rest => config.compiled index ++ compiledFrom (index + 1) rest

lemma compileAssignments_ok {id : PolicyId}
    (h : compileAssignments policy id configs = .ok compiled) :
    compiled = configs.filterMap fun assignment =>
      (compileAssignment policy assignment).toOption.map fun compiled =>
        ⟨compiled.1, compiled.2, id⟩ := by
  induction configs generalizing compiled with
  | nil =>
    cases h
    rfl
  | cons config rest ih =>
    simp only [compileAssignments, bind, Except.bind] at h
    split at h
    · cases h
    next first hfirst =>
      split at h
      · cases h
      next more hmore =>
        cases h
        rw [filterMap_cons, hfirst, ← ih hmore]
        rfl

lemma compilePolicies_ok (h : compilePolicies index policies = .ok compiled) :
    compiled = compiledFrom index policies := by
  induction policies generalizing index compiled with
  | nil =>
    cases h
    rfl
  | cons config rest ih =>
    simp only [compilePolicies, bind, Except.bind] at h
    split at h
    · cases h
    next first hfirst =>
      split at h
      · cases h
      next more hmore =>
        cases h
        rw [compileAssignments_ok hfirst, ih hmore]
        rfl

lemma fromConfig_ok {set : PolicySet} (h : PolicySet.fromConfig zone timezone policies = .ok set) :
    zone timezone = some set.localTime ∧ policies.length < maxPolicies ∧
      set.assignments = greatestFirst (fun assignment => assignment.client.specificity)
        (compiledFrom 0 policies) := by
  simp only [PolicySet.fromConfig] at h
  split at h
  · cases h
  next localTime hzone =>
    split at h
    · cases h
    next hcount =>
      simp only [bind, Except.bind] at h
      split at h
      · cases h
      next compiled hcompiled =>
        cases h
        exact ⟨hzone, by omega, congrArg _ (compilePolicies_ok hcompiled)⟩

section Snapshot

variable {named : List (IpAddr × Bytes)}

lemma any_active (ip : IpAddr) (hnamed : (named.map Prod.fst).Nodup)
    (assignment : CompiledAssignment) :
    ((assignment.active named).any fun entry => entry.1.matches ip none) =
      assignment.client.matches ip (named.lookup ip) := by
  obtain ⟨client, schedule, policy⟩ := assignment
  cases client with
  | ip | network => simp [CompiledAssignment.active, ClientSelector.matches]
  | name wanted =>
    simp only [CompiledAssignment.active, ClientSelector.matches, any_map, any_filter]
    induction named with
    | nil => rfl
    | cons entry named ih =>
      obtain ⟨hfresh, hrest⟩ := nodup_cons.mp hnamed
      rw [any_cons, ih hrest]
      by_cases hip : entry.1 = ip
      · -- the address has no second name
        have hnone : named.lookup ip = none := by
          rw [lookup_eq_none_iff]
          intro other hother
          have : ip ≠ other.1 := by
            rintro rfl
            exact hfresh (hip ▸ mem_map_of_mem hother)
          simpa using this
        subst hip
        rw [show (entry :: named).lookup entry.1 = some entry.2 from lookup_cons_self, hnone]
        simp
      · have hlookup : (entry :: named).lookup ip = named.lookup ip := by
          have hne : (ip == entry.1) = false := by simpa using Ne.symm hip
          rw [lookup_cons, hne]
        rw [hlookup]
        simp [hip]

lemma policy_of_mem_active {assignment : CompiledAssignment}
    (h : entry ∈ assignment.active named) : entry.2 = assignment.policy := by
  obtain ⟨client, schedule, policy⟩ := assignment
  cases client with
  | ip | network => simp_all [CompiledAssignment.active]
  | name wanted =>
    obtain ⟨e, -, rfl⟩ := mem_map.mp h
    rfl

/-- Some entry of the assignment is for the address, and it is in force. -/
def CompiledAssignment.covers (assignment : CompiledAssignment) (named : List (IpAddr × Bytes))
    (ip : IpAddr) (time : LocalTime) : Bool :=
  ((assignment.active named).any fun entry => entry.1.matches ip none) &&
    assignment.schedule.all (·.contains time)

lemma find?_active (ip : IpAddr) (time : LocalTime) (assignments : List CompiledAssignment) :
    (((assignments.filter fun a => a.schedule.all (·.contains time)).flatMap
        (·.active named)).find? fun entry => entry.1.matches ip none).map Prod.snd =
      (assignments.find? fun a => a.covers named ip time).map (·.policy) := by
  induction assignments with
  | nil => rfl
  | cons assignment rest ih =>
    cases hactive : assignment.schedule.all (·.contains time) with
    | false =>
      rw [filter_cons_of_neg (by simp [hactive]), ih, find?_cons_of_neg]
      simp [CompiledAssignment.covers, hactive]
    | true =>
      rw [filter_cons_of_pos (by simpa using hactive), flatMap_cons, find?_append]
      cases hany : (assignment.active named).any fun entry => entry.1.matches ip none with
      | false =>
        have hnone := any_eq_false.mp hany
        rw [find?_eq_none.mpr hnone, Option.none_or, ih, find?_cons_of_neg]
        simp [CompiledAssignment.covers, hany]
      | true =>
        obtain ⟨entry, hentry⟩ := find?_isSome.mpr (any_eq_true.mp hany) |>
          Option.isSome_iff_exists.mp
        rw [hentry, Option.some_or, find?_cons_of_pos]
        · simp [policy_of_mem_active (mem_of_find?_eq_some hentry)]
        · simp [CompiledAssignment.covers, hany, hactive]

lemma policyFor_activeAt (set : PolicySet) (now : Int) (named : List (IpAddr × Bytes))
    (ip : IpAddr) :
    (set.activeAt now named).policyFor ip = ((set.assignments.find? fun a =>
      a.covers named ip (set.localTime now)).map (·.policy)).getD .default := by
  rw [← find?_active, ActivePolicies.policyFor, PolicySet.activeAt]
  generalize List.find? _ _ = found
  cases found with
  | none => rfl
  | some entry => rfl

/-- **The snapshot is the resolution.** For every policy set, every instant and
every list of named clients with distinct addresses, the snapshot of the instant
gives each address the policy it resolves to under its name. -/
theorem snapshot_resolves (set : PolicySet) (now : Int) (named : List (IpAddr × Bytes))
    (hnamed : (named.map Prod.fst).Nodup) (ip : IpAddr) :
    (set.activeAt now named).policyFor ip = set.resolve ip (named.lookup ip) now := by
  have hcovers : ∀ a : CompiledAssignment, a.covers named ip (set.localTime now) =
      a.applies ip (named.lookup ip) (set.localTime now) := fun a => by
    rw [CompiledAssignment.covers, any_active ip hnamed, CompiledAssignment.applies]
  rw [policyFor_activeAt, PolicySet.resolve]
  simp only [hcovers]
  split
  next hempty => rw [List.isEmpty_iff.mp hempty, find?_nil, Option.map_none, Option.getD_none]
  · generalize List.find? _ _ = found
    cases found with
    | none => rfl
    | some a => rfl

/-- A device by its name on school nights, and the rest of its network. -/
def schoolNights : PolicySet where
  localTime := fun _ => ⟨5, 1320⟩
  policies := [defaultPolicy, ⟨lit "kids", none⟩, ⟨lit "guests", some []⟩]
  assignments := [⟨.name (lit "Tablet"), some ⟨0b00111110, 1260, 420⟩, positionId 0⟩,
    ⟨.network (.v4 ⟨192, 168, 1, 0⟩) 24, none, positionId 1⟩]

theorem snapshot_resolves_schoolNights :
    (schoolNights.activeAt 0 [(.v4 ⟨192, 168, 1, 7⟩, lit "tablet")]).policyFor
        (.v4 ⟨192, 168, 1, 7⟩) =
      schoolNights.resolve (.v4 ⟨192, 168, 1, 7⟩) (some (lit "tablet")) 0 :=
  snapshot_resolves schoolNights 0 [(.v4 ⟨192, 168, 1, 7⟩, lit "tablet")] (by simp)
    (.v4 ⟨192, 168, 1, 7⟩)

end Snapshot

end FastAdHunter.Rules
