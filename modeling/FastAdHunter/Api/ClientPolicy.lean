import FastAdHunter.Api.Lists
import FastAdHunter.Lib.Words
import FastAdHunter.Rules.PolicyConfig

/-!
# Putting a client on a policy

A request names an address and a policy. Whatever the configuration assigns to the
printed address is removed, and an assignment of that text is added to the policy.
What is removed is found by its text, and what judges a query by its meaning: the
same address in another spelling stays, and an address that the pipeline
canonicalises is never met again.
-/

namespace FastAdHunter.Api

open Lib Net Rules List

structure ClientPolicyRequest where
  policy : Bytes
  days : Option Bytes
  start : Option Bytes
  stop : Option Bytes

/-- `parse_ip`. -/
def parseIp (raw : Bytes) : Except ApiError IpAddr :=
  match parseIpAddr raw with
  | some ip => .ok ip
  | none => .error (.badRequest [.debug raw, .lit " is not an IP address"])

/-- Every assignment of a client text is taken out. -/
def PolicyConfig.without (config : PolicyConfig) (client : Bytes) : PolicyConfig :=
  { config with assignments := config.assignments.filter fun existing => existing.client != client }

def PolicyConfig.push (config : PolicyConfig) (assignment : AssignmentConfig) : PolicyConfig :=
  { config with assignments := config.assignments ++ [assignment] }

/-- The policies that a request to assign a client stores. -/
def setClientPolicy (policies : List PolicyConfig) (raw : Bytes) (body : ClientPolicyRequest) :
    Except ApiError (List PolicyConfig) := do
  let ip ← parseIp raw
  let assignment : AssignmentConfig := ⟨showIpAddr ip, body.days, body.start, body.stop⟩
  let next := policies.map (PolicyConfig.without · assignment.client)
  match next.findIdx? fun policy => policy.id == body.policy with
  | none => throw (.notFound [.lit "no such policy: ", .text body.policy])
  | some index => pure (next.modify index (PolicyConfig.push · assignment))

lemma parseSelector_showIpAddr (ip : IpAddr) : parseSelector (showIpAddr ip) = some (.ip ip) := by
  have hbytes := isAddrByte_showIpAddr ip
  have hgraphic : ∀ b, isAddrByte b = true → isGraphic b = true := by decide +kernel
  have htrim : trim (showIpAddr ip) = showIpAddr ip :=
    trim_eq_self (fun b hb => hgraphic b (hbytes b (mem_of_mem_head? hb)))
      fun b hb => hgraphic b (hbytes b (mem_of_getLast? hb))
  have hslash : splitOnce (ch '/') (showIpAddr ip) = none := by
    rw [splitOnce_eq_none_iff]
    intro hmem
    exact absurd (hbytes _ hmem) (by decide)
  have hempty : (showIpAddr ip).isEmpty = false := by
    cases hshow : showIpAddr ip with
    | cons b rest => rfl
    | nil =>
      have hparse := parseIpAddr_show ip
      rw [hshow] at hparse
      cases hparse
  simp only [parseSelector, htrim, hempty, hslash, parseIpAddr_show]
  rfl

section Stored

variable {policies : List PolicyConfig} {client : Bytes}

lemma compiledFrom_append (index : Nat) (first rest : List PolicyConfig) :
    compiledFrom index (first ++ rest) =
      compiledFrom index first ++ compiledFrom (index + first.length) rest := by
  induction first generalizing index with
  | nil => rfl
  | cons config first ih =>
    rw [cons_append, compiledFrom, compiledFrom, ih, append_assoc, length_cons,
      Nat.add_assoc, Nat.add_comm 1]

lemma mem_compiledFrom :
    compiled ∈ compiledFrom index policies ↔ ∃ j config, policies[j]? = some config ∧
      ∃ assignment ∈ config.assignments, ∃ result,
        compileAssignment config.id assignment = .ok result ∧
          compiled = ⟨result.1, result.2, positionId (index + j)⟩ := by
  induction policies generalizing index with
  | nil => simp [compiledFrom]
  | cons config rest ih =>
    rw [compiledFrom, mem_append, ih]
    constructor
    · rintro (h | ⟨j, other, hj, h⟩)
      · obtain ⟨assignment, hassignment, h⟩ := mem_filterMap.mp h
        obtain ⟨result, hresult, rfl⟩ := Option.map_eq_some_iff.mp h
        refine ⟨0, config, rfl, assignment, hassignment, result, ?_, rfl⟩
        cases hcompile : compileAssignment config.id assignment with
        | error e => simp [hcompile, Except.toOption] at hresult
        | ok r =>
          simp only [hcompile, Except.toOption, Option.some.injEq] at hresult
          rw [hresult]
      · refine ⟨j + 1, other, hj, ?_⟩
        rwa [Nat.add_right_comm, Nat.add_assoc] at h
    · rintro ⟨j, other, hj, assignment, hassignment, result, hresult, rfl⟩
      cases j with
      | zero =>
        rw [getElem?_cons_zero, Option.some.injEq] at hj
        subst hj
        refine .inl (mem_filterMap.mpr ⟨assignment, hassignment, ?_⟩)
        rw [hresult]
        rfl
      | succ j =>
        refine .inr ⟨j, other, hj, assignment, hassignment, result, hresult, ?_⟩
        rw [Nat.add_right_comm, Nat.add_assoc]

lemma parseSelector_network (h : parseSelector spec = some (.network address len)) : len ≤ 128 := by
  have hbits : address.bits ≤ 128 := by cases address <;> simp [IpAddr.bits]
  simp only [parseSelector] at h
  split at h
  · cases h
  · split at h
    next address' len' _ =>
      obtain ⟨parsed, -, h⟩ := Option.bind_eq_some_iff.mp h
      obtain ⟨n, -, h⟩ := Option.bind_eq_some_iff.mp h
      split at h
      · cases h
      next hle =>
        cases h
        omega
    · split at h
      · cases h
      · cases h

lemma compileAssignment_client (h : compileAssignment policy config = .ok result) :
    parseSelector config.client = some result.1 := by
  simp only [compileAssignment] at h
  split at h
  · cases h
  next selector hselector =>
    split at h
    · cases h
    · cases h
    · cases h
      exact hselector

lemma compileAssignment_showIpAddr (policy : Bytes) (ip : IpAddr) :
    compileAssignment policy ⟨showIpAddr ip, none, none, none⟩ = .ok (.ip ip, none) := by
  simp only [compileAssignment, parseSelector_showIpAddr]
  rfl

lemma compiled_push :
    (PolicyConfig.push config ⟨showIpAddr ip, none, none, none⟩).compiled index =
      config.compiled index ++ [⟨.ip ip, none, positionId index⟩] := by
  simp only [PolicyConfig.compiled, PolicyConfig.push, filterMap_append]
  rw [filterMap_cons, compileAssignment_showIpAddr]
  rfl

lemma positionId_inj (hi : i < maxPolicies) (hj : j < maxPolicies)
    (h : positionId i = positionId j) : i = j := by
  have hnat := congrArg (fun id => id.index.toNat) h
  simp only [positionId, UInt8.toNat_ofNat', maxPolicies] at hnat hi hj
  omega

/-- An address is taken out everywhere, and an assignment of it is added to the
policy at a position. -/
def reassigned (policies : List PolicyConfig) (ip : IpAddr) (t : Nat) (target : PolicyConfig)
    (days start stop : Option Bytes) : List PolicyConfig :=
  (policies.take t).map (PolicyConfig.without · (showIpAddr ip)) ++
    PolicyConfig.push (PolicyConfig.without target (showIpAddr ip))
      ⟨showIpAddr ip, days, start, stop⟩ ::
    (policies.drop (t + 1)).map (PolicyConfig.without · (showIpAddr ip))

lemma setClientPolicy_ok (h : setClientPolicy policies raw body = .ok stored) :
    ∃ ip t target, parseIpAddr raw = some ip ∧
      policies.findIdx? (fun policy => policy.id == body.policy) = some t ∧
      policies[t]? = some target ∧
      stored = reassigned policies ip t target body.days body.start body.stop := by
  simp only [setClientPolicy, parseIp, bind, Except.bind] at h
  cases hip : parseIpAddr raw with
  | none => simp [hip] at h
  | some ip =>
    simp only [hip] at h
    have hids : (policies.map (PolicyConfig.without · (showIpAddr ip))).findIdx?
        (fun policy => policy.id == body.policy) =
          policies.findIdx? fun policy => policy.id == body.policy := by
      rw [findIdx?_map]
      rfl
    rw [hids] at h
    cases ht : policies.findIdx? fun policy => policy.id == body.policy with
    | none => simp [ht] at h
    | some t =>
      simp only [ht, pure, Except.pure, Except.ok.injEq] at h
      have hlt : t < policies.length := (findIdx?_eq_some_iff_getElem.mp ht).1
      refine ⟨ip, t, policies[t], rfl, rfl, getElem?_eq_getElem hlt, ?_⟩
      rw [← h, modify_eq_take_cons_drop (by simpa using hlt), ← map_take,
        ← map_drop, getElem_map]
      rfl

end Stored

section Effect

variable {policies : List PolicyConfig} {named : List (IpAddr × Bytes)} {time : LocalTime}

/-- Some policy has an assignment in force that names the address in another
spelling than the printed one. -/
def OtherSpelling (ip : IpAddr) (time : LocalTime) (policies : List PolicyConfig) : Prop :=
  ∃ config ∈ policies, ∃ assignment ∈ config.assignments, assignment.client ≠ showIpAddr ip ∧
    ∃ schedule, compileAssignment config.id assignment = .ok (.ip ip, schedule) ∧
      schedule.all (·.contains time) = true

/-- No assignment by name is for the client. -/
def SparedByNames (policies : List PolicyConfig) (named : List (IpAddr × Bytes)) (ip : IpAddr) :
    Prop :=
  ∀ config ∈ policies, ∀ assignment ∈ config.assignments, ∀ wanted,
    parseSelector assignment.client = some (.name wanted) →
      ∀ entry ∈ named, entry.1 = ip → eqIgnoreAsciiCase entry.2 wanted = false

lemma covers_ip (ip wanted : IpAddr) (schedule : Option Schedule) (policy : PolicyId) :
    (⟨.ip wanted, schedule, policy⟩ : CompiledAssignment).covers named ip time =
      (wanted == ip && schedule.all (·.contains time)) := by
  simp [CompiledAssignment.covers, CompiledAssignment.active, ClientSelector.matches]

lemma covers_of_address (hspared : SparedByNames policies named ip)
    (hmem : compiled ∈ compiledFrom index policies) (hcovers : compiled.covers named ip time = true) :
    compiled.client.specificity ≤ 900 ∧
      (compiled.client.specificity = 900 → compiled.client = .ip ip) := by
  obtain ⟨j, config, hj, assignment, hassignment, ⟨client, schedule⟩, hresult, rfl⟩ :=
    mem_compiledFrom.mp hmem
  have hclient := compileAssignment_client hresult
  cases client with
  | ip wanted =>
    rw [covers_ip, Bool.and_eq_true, beq_iff_eq] at hcovers
    exact ⟨Nat.le_refl _, fun _ => congrArg _ hcovers.1⟩
  | network address len =>
    have hlen := parseSelector_network hclient
    simp only [ClientSelector.specificity]
    exact ⟨by omega, fun h => by omega⟩
  | name wanted =>
    simp only [CompiledAssignment.covers, CompiledAssignment.active, Bool.and_eq_true,
      any_eq_true, mem_map, mem_filter] at hcovers
    obtain ⟨⟨_, ⟨entry, ⟨hentry, hname⟩, rfl⟩, hip⟩, -⟩ := hcovers
    rw [ClientSelector.matches, beq_iff_eq] at hip
    rw [hspared config (mem_of_getElem? hj) assignment hassignment wanted hclient entry
      hentry hip] at hname
    cases hname

lemma mem_without :
    assignment ∈ (PolicyConfig.without config client).assignments ↔
      assignment ∈ config.assignments ∧ assignment.client ≠ client := by
  simp [PolicyConfig.without]

lemma covers_address_iff {id : PolicyId}
    (hresult : compileAssignment policy assignment = .ok result) :
    ((⟨result.1, result.2, id⟩ : CompiledAssignment).covers named ip time &&
        result.1.specificity == 900) = true ↔
      result.1 = .ip ip ∧ result.2.all (·.contains time) = true := by
  have hclient := compileAssignment_client hresult
  obtain ⟨client, schedule⟩ := result
  cases client with
  | ip wanted => simp [covers_ip, ClientSelector.specificity]
  | network address len =>
    have hlen := parseSelector_network hclient
    have hne : len ≠ 900 := by omega
    simp [ClientSelector.specificity, hne]
  | name wanted => simp [ClientSelector.specificity]

lemma find?_without_eq_none_iff (named : List (IpAddr × Bytes)) (index : Nat) :
    ((compiledFrom index (policies.map (PolicyConfig.without · (showIpAddr ip)))).find? fun a =>
      a.covers named ip time && a.client.specificity == 900) = none ↔
    ¬ OtherSpelling ip time policies := by
  rw [find?_eq_none]
  constructor
  · rintro hnone ⟨config, hconfig, assignment, hassignment, hclient, schedule, hresult, hactive⟩
    obtain ⟨j, hj⟩ := getElem?_of_mem hconfig
    refine hnone _ (mem_compiledFrom.mpr ⟨j, PolicyConfig.without config (showIpAddr ip), ?_,
      assignment, mem_without.mpr ⟨hassignment, hclient⟩, _, hresult, rfl⟩) ?_
    · rw [getElem?_map, hj]
      rfl
    · exact (covers_address_iff hresult).mpr ⟨rfl, hactive⟩
  · intro hnone compiled hcompiled hcovers
    obtain ⟨j, config', hj, assignment, hassignment, ⟨selector, schedule⟩, hresult, rfl⟩ :=
      mem_compiledFrom.mp hcompiled
    rw [getElem?_map] at hj
    obtain ⟨config, hconfig, rfl⟩ := Option.map_eq_some_iff.mp hj
    obtain ⟨rfl, hactive⟩ := (covers_address_iff hresult).mp hcovers
    obtain ⟨hassignment, hclient⟩ := mem_without.mp hassignment
    exact hnone ⟨config, mem_of_getElem? hconfig, assignment, hassignment, hclient, schedule,
      hresult, hactive⟩

variable {t : Nat} {target : PolicyConfig} {other : IpAddr}

lemma SparedByNames.stored
    (h : SparedByNames policies named canonical) (htarget : policies[t]? = some target) :
    SparedByNames (reassigned policies ip t target none none none) named canonical := by
  intro config hconfig assignment hassignment wanted hwanted
  rw [reassigned, mem_append, mem_cons, mem_map, mem_map] at hconfig
  rcases hconfig with ⟨other, hother, rfl⟩ | rfl | ⟨other, hother, rfl⟩
  · exact h other (mem_of_mem_take hother) assignment (mem_without.mp hassignment).1 wanted
      hwanted
  · rcases mem_append.mp hassignment with hassignment | hassignment
    · exact h target (mem_of_getElem? htarget) assignment (mem_without.mp hassignment).1
        wanted hwanted
    · rw [mem_singleton.mp hassignment, parseSelector_showIpAddr] at hwanted
      cases hwanted
  · exact h other (mem_of_mem_drop hother) assignment (mem_without.mp hassignment).1 wanted
      hwanted

lemma policy_of_mem_compiled {config : PolicyConfig}
    (h : compiled ∈ config.compiled index) : compiled.policy = positionId index := by
  obtain ⟨assignment, -, hcompiled⟩ := mem_filterMap.mp h
  obtain ⟨result, -, rfl⟩ := Option.map_eq_some_iff.mp hcompiled
  rfl

lemma assigned_iff
    (hspared : SparedByNames policies named ip) (hcount : policies.length < maxPolicies)
    (htarget : policies[t]? = some target) :
    (((greatestFirst (fun a : CompiledAssignment => a.client.specificity)
        (compiledFrom 0 (reassigned policies ip t target none none none))).find? fun a =>
          a.covers named ip time).map (·.policy)).getD .default = positionId t ↔
      ¬ OtherSpelling ip time (policies.take t) := by
  have hlt : t < policies.length := (List.getElem?_eq_some_iff.mp htarget).1
  have hlength : ((policies.take t).map (PolicyConfig.without · (showIpAddr ip))).length = t := by
    rw [length_map, length_take, Nat.min_eq_left (Nat.le_of_lt hlt)]
  have hnew : (⟨.ip ip, none, positionId t⟩ : CompiledAssignment).covers named ip time = true := by
    rw [covers_ip]
    simp
  rw [find?_greatestFirst (k := 900)]
  · rw [reassigned, compiledFrom_append, hlength, compiledFrom, compiled_push, find?_append,
      ← find?_without_eq_none_iff named 0]
    cases hfirst : (compiledFrom 0 ((policies.take t).map
        (PolicyConfig.without · (showIpAddr ip)))).find? fun a =>
          a.covers named ip time && a.client.specificity == 900 with
    | none =>
      -- the first one that is left is of the policy itself
      rw [Option.none_or, find?_append]
      obtain ⟨found, hfound⟩ : ∃ found, List.find?
          (fun a : CompiledAssignment =>
            a.covers named ip time && a.client.specificity == 900)
          ((PolicyConfig.without target (showIpAddr ip)).compiled (0 + t) ++
            [⟨.ip ip, none, positionId (0 + t)⟩]) = some found := by
        refine Option.isSome_iff_exists.mp (find?_isSome.mpr ⟨_, mem_append_right _
          mem_cons_self, ?_⟩)
        rw [Nat.zero_add, hnew]
        rfl
      rw [hfound]
      have hpolicy : found.policy = positionId t := by
        rcases mem_append.mp (mem_of_find?_eq_some hfound) with hmem | hmem
        · rw [policy_of_mem_compiled hmem, Nat.zero_add]
        · rw [mem_singleton.mp hmem, Nat.zero_add]
      simp [hpolicy]
    | some found =>
      obtain ⟨j, config, hj, -, -, -, -, rfl⟩ :=
        mem_compiledFrom.mp (mem_of_find?_eq_some hfirst)
      have hjt : j < t := by
        rw [← hlength]
        exact (List.getElem?_eq_some_iff.mp hj).1
      have hne : positionId j ≠ positionId t := fun h => by
        have := positionId_inj (by omega) (by omega) h
        omega
      simp [hne]
  · intro a ha hcovers
    exact (covers_of_address (hspared.stored htarget) ha hcovers).1
  · refine ⟨⟨.ip ip, none, positionId t⟩, ?_, hnew, rfl⟩
    rw [reassigned, compiledFrom_append, hlength, compiledFrom, compiled_push, Nat.zero_add]
    simp

lemma filter_compiled_without (hne : other ≠ ip) (config : PolicyConfig) (index : Nat) :
    ((PolicyConfig.without config (showIpAddr ip)).compiled index).filter
        (fun a => a.covers named other time) =
      (config.compiled index).filter fun a => a.covers named other time := by
  obtain ⟨id, name, lists, mode, assignments⟩ := config
  simp only [PolicyConfig.without, PolicyConfig.compiled]
  induction assignments with
  | nil => rfl
  | cons assignment rest ih =>
    by_cases hclient : assignment.client = showIpAddr ip
    · rw [filter_cons_of_neg (by simp [hclient]), ih, filterMap_cons]
      split
      · rfl
      next compiled hcompiled =>
        -- what was taken out is of that address alone
        obtain ⟨result, hresult, rfl⟩ := Option.map_eq_some_iff.mp hcompiled
        cases hcompile : compileAssignment id assignment with
        | error e => simp [hcompile, Except.toOption] at hresult
        | ok r =>
          simp only [hcompile, Except.toOption, Option.some.injEq] at hresult
          subst hresult
          have hselector := compileAssignment_client hcompile
          rw [hclient, parseSelector_showIpAddr, Option.some.injEq] at hselector
          rw [filter_cons_of_neg]
          rw [← hselector, covers_ip]
          simp [Ne.symm hne]
    · rw [filter_cons_of_pos (by simpa using hclient), filterMap_cons,
        filterMap_cons]
      split
      · exact ih
      · rw [filter_cons, filter_cons, ih]

lemma filter_compiledFrom_without (hne : other ≠ ip) (policies : List PolicyConfig) (index : Nat) :
    (compiledFrom index (policies.map (PolicyConfig.without · (showIpAddr ip)))).filter
        (fun a => a.covers named other time) =
      (compiledFrom index policies).filter fun a => a.covers named other time := by
  induction policies generalizing index with
  | nil => rfl
  | cons config rest ih =>
    rw [map_cons, compiledFrom, compiledFrom, filter_append, filter_append,
      filter_compiled_without hne, ih]

lemma filter_covers_reassigned (hne : other ≠ ip) (htarget : policies[t]? = some target) :
    (compiledFrom 0 (reassigned policies ip t target none none none)).filter
        (fun a => a.covers named other time) =
      (compiledFrom 0 policies).filter fun a => a.covers named other time := by
  obtain ⟨hlt, rfl⟩ := List.getElem?_eq_some_iff.mp htarget
  have hsplit : compiledFrom 0 policies =
      compiledFrom 0 (policies.take t ++ policies[t] :: policies.drop (t + 1)) := by
    rw [getElem_cons_drop, take_append_drop]
  have hnew : (⟨.ip ip, none, positionId (0 + t)⟩ : CompiledAssignment).covers named other time =
      false := by
    rw [covers_ip]
    simp [Ne.symm hne]
  rw [hsplit, reassigned, compiledFrom_append, compiledFrom_append, compiledFrom, compiledFrom,
    compiled_push, length_map]
  simp only [filter_append]
  rw [filter_compiledFrom_without hne, filter_compiledFrom_without hne,
    filter_compiled_without hne]
  rw [filter_cons_of_neg]
  · simp
  · rw [length_take, Nat.min_eq_left (Nat.le_of_lt hlt), hnew]
    simp

/-- **Assigning a client takes effect** exactly when the address is not one that
the pipeline canonicalises and no policy before the requested one names it in
another spelling with a schedule in force; a canonicalised address is judged as
before. -/
theorem client_assignment_effective_iff {zone : Bytes → Option (Int → LocalTime)}
    {timezone raw requested : Bytes} {policies stored : List PolicyConfig} {before after : PolicySet}
    {ip : IpAddr} {t : Nat} (hbefore : PolicySet.fromConfig zone timezone policies = .ok before)
    (hip : parseIpAddr raw = some ip)
    (ht : policies.findIdx? (fun policy => policy.id == requested) = some t)
    (hput : setClientPolicy policies raw ⟨requested, none, none, none⟩ = .ok stored)
    (hafter : PolicySet.fromConfig zone timezone stored = .ok after) (now : Int)
    (hspared : SparedByNames policies named ip.toCanonical) (rules : Matcher) :
    (rules.contextFor ip.toCanonical (after.activeAt now named)).policy = positionId t ↔
      if ip.toCanonical = ip then ¬ OtherSpelling ip (after.localTime now) (policies.take t)
      else (rules.contextFor ip.toCanonical (before.activeAt now named)).policy = positionId t := by
  obtain ⟨ip', t', target, hip', ht', htarget, rfl⟩ := setClientPolicy_ok hput
  obtain rfl : ip = ip' := Option.some.inj (hip.symm.trans hip')
  obtain rfl : t = t' := Option.some.inj (ht.symm.trans ht')
  obtain ⟨hzone, hcount, hsorted⟩ := fromConfig_ok hbefore
  obtain ⟨hzone', -, hsorted'⟩ := fromConfig_ok hafter
  have htime : before.localTime = after.localTime := Option.some.inj (hzone.symm.trans hzone')
  simp only [Matcher.contextFor, policyFor_activeAt, hsorted, hsorted', htime]
  by_cases hcanonical : ip.toCanonical = ip
  · rw [if_pos hcanonical, hcanonical]
    rw [hcanonical] at hspared
    exact assigned_iff hspared hcount htarget
  · rw [if_neg hcanonical, find?_greatestFirst_congr (filter_covers_reassigned hcanonical htarget)]

/-- A clock that stands still. -/
def stillZone : Bytes → Option (Int → LocalTime) :=
  fun _ => some fun _ => ⟨0, 0⟩

/-- An address assigned in upper case to the first of two policies. -/
def spelledPolicies : List PolicyConfig :=
  [⟨lit "work", none, none, none, [⟨lit "2001:DB8::1", none, none, none⟩]⟩,
    ⟨lit "kids", none, none, none, []⟩]

/-- The request adds the address in lower case to the second. -/
def respelledPolicies : List PolicyConfig :=
  [⟨lit "work", none, none, none, [⟨lit "2001:DB8::1", none, none, none⟩]⟩,
    ⟨lit "kids", none, none, none, [⟨lit "2001:db8::1", none, none, none⟩]⟩]

def spelledIp : IpAddr := .v6 ⟨0x2001, 0xdb8, 0, 0, 0, 0, 0, 1⟩

def spelledSet (assignments : List CompiledAssignment) : PolicySet where
  localTime := fun _ => ⟨0, 0⟩
  policies := [defaultPolicy, ⟨lit "work", none⟩, ⟨lit "kids", none⟩]
  assignments := assignments

lemma spelled_put :
    PolicySet.fromConfig stillZone (lit "UTC") spelledPolicies =
        .ok (spelledSet [⟨.ip spelledIp, none, positionId 0⟩]) ∧
      parseIpAddr (lit "2001:db8::1") = some spelledIp ∧
      spelledPolicies.findIdx? (fun policy => policy.id == lit "kids") = some 1 ∧
      setClientPolicy spelledPolicies (lit "2001:db8::1") ⟨lit "kids", none, none, none⟩ =
        .ok respelledPolicies ∧
      PolicySet.fromConfig stillZone (lit "UTC") respelledPolicies =
        .ok (spelledSet [⟨.ip spelledIp, none, positionId 0⟩,
          ⟨.ip spelledIp, none, positionId 1⟩]) := by
  have hcompile' : compilePolicies 0 respelledPolicies =
      .ok [⟨.ip spelledIp, none, positionId 0⟩, ⟨.ip spelledIp, none, positionId 1⟩] := by
    decide +kernel
  refine ⟨?_, by decide +kernel, by decide +kernel, by decide +kernel, ?_⟩
  · simp only [PolicySet.fromConfig]
    rfl
  · simp only [PolicySet.fromConfig, hcompile']
    rfl

/-- **An older spelling wins**: the request succeeds, and the client stays on the
other policy. -/
theorem assignment_shadowed_by_spelling :
    ∃ before stored after,
      PolicySet.fromConfig stillZone (lit "UTC") spelledPolicies = .ok before ∧
      setClientPolicy spelledPolicies (lit "2001:db8::1") ⟨lit "kids", none, none, none⟩ =
        .ok stored ∧
      PolicySet.fromConfig stillZone (lit "UTC") stored = .ok after ∧
      ∀ rules : Matcher, (rules.contextFor spelledIp.toCanonical (after.activeAt 0 [])).policy =
        positionId 0 := by
  obtain ⟨hbefore, -, -, hput, hafter⟩ := spelled_put
  refine ⟨_, _, _, hbefore, hput, hafter, fun rules => ?_⟩
  simp only [Matcher.contextFor]
  decide +kernel

/-- No rules at all. -/
def noRules : Matcher := (compile 0 1 []).get (by decide +kernel)

theorem client_assignment_effective_iff_spelled :
    (noRules.contextFor spelledIp.toCanonical ((spelledSet [⟨.ip spelledIp, none, positionId 0⟩,
        ⟨.ip spelledIp, none, positionId 1⟩]).activeAt 0 [])).policy = positionId 1 ↔
      if spelledIp.toCanonical = spelledIp then
        ¬ OtherSpelling spelledIp ⟨0, 0⟩ (spelledPolicies.take 1)
      else (noRules.contextFor spelledIp.toCanonical
        ((spelledSet [⟨.ip spelledIp, none, positionId 0⟩]).activeAt 0 [])).policy =
          positionId 1 := by
  obtain ⟨hbefore, hip, ht, hput, hafter⟩ := spelled_put
  refine client_assignment_effective_iff hbefore hip ht hput hafter 0 ?_ noRules
  intro config _ assignment _ wanted _ entry hentry
  cases hentry

end Effect

end FastAdHunter.Api
