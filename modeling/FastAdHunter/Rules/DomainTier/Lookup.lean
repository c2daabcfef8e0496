import FastAdHunter.Rules.DomainTier.Build

/-!
# The lookup refines the rules that were added

The walk over the suffixes of a name, each through the slot table, decides as
if it looked through the list of added rules: an applicable allow wins over any
block, and inside a class the rule with the longest domain, added first, is
decisive. Merged duplicates, the dropped mask array and the table of tagged
slots do not show.
-/

namespace FastAdHunter.Rules

open Lib Net Probing
open List hiding merge next

/-- What follows each dot of a name, longest first. -/
def afterDots : Bytes → List Bytes
  | [] => []
  | b :: s => if b == ch '.' then s :: afterDots s else afterDots s

/-- The name and its parents, most specific first. -/
def nameSuffixes (name : Bytes) : List Bytes :=
  name :: afterDots name

lemma afterDots_eq (s : Bytes) :
    afterDots s =
      match findByte (· == ch '.') s with
      | some rel => nameSuffixes (s.drop (rel + 1))
      | none => [] := by
  induction s with
  | nil => rfl
  | cons b s ih =>
    rw [afterDots, findByte, findIdx?_cons]
    by_cases hb : (b == ch '.') = true
    · rw [if_pos hb, if_pos hb]
      rfl
    · rw [if_neg hb, if_neg hb, ih, findByte]
      cases s.findIdx? (· == ch '.') <;> rfl

lemma mem_afterDots_iff (s t : Bytes) : t ∈ afterDots s ↔ ∃ front, s = front ++ ch '.' :: t := by
  induction s with
  | nil => simp [afterDots]
  | cons b s ih =>
    by_cases hb : b = ch '.'
    · subst hb
      simp only [afterDots, beq_self_eq_true, if_true, mem_cons, ih]
      constructor
      · rintro (rfl | ⟨front, rfl⟩)
        · exact ⟨[], rfl⟩
        · exact ⟨ch '.' :: front, rfl⟩
      · rintro ⟨front, h⟩
        cases front with
        | nil => exact .inl (List.cons.inj h).2.symm
        | cons c front => exact .inr ⟨front, (List.cons.inj h).2⟩
    · have hne : (b == ch '.') = false := by simpa using hb
      simp only [afterDots, hne, Bool.false_eq_true, if_false, ih]
      constructor
      · rintro ⟨front, rfl⟩
        exact ⟨b :: front, rfl⟩
      · rintro ⟨front, h⟩
        cases front with
        | nil => exact absurd (List.cons.inj h).1 hb
        | cons c front => exact ⟨front, (List.cons.inj h).2⟩

lemma length_lt_of_mem_afterDots (h : t ∈ afterDots s) : t.length < s.length := by
  obtain ⟨front, rfl⟩ := (mem_afterDots_iff s t).mp h
  simp
  omega

lemma nameSuffixes_pairwise (s : Bytes) :
    (nameSuffixes s).Pairwise (fun a b => b.length < a.length) := by
  have hdots : (afterDots s).Pairwise (fun a b => b.length < a.length) := by
    induction s with
    | nil => exact List.Pairwise.nil
    | cons b s ih =>
      rw [afterDots]
      split
      · exact pairwise_cons.mpr ⟨fun t ht => length_lt_of_mem_afterDots ht, ih⟩
      · exact ih
  exact pairwise_cons.mpr ⟨fun t ht => length_lt_of_mem_afterDots ht, hdots⟩

lemma toLower_eq_dot_iff : ∀ b : UInt8, toLower b = ch '.' ↔ b = ch '.' := by
  decide +kernel

lemma lower_eq_append_dot_iff (s d : Bytes) :
    (∃ front, lower s = front ++ ch '.' :: lower d) ↔ ∃ t ∈ afterDots s, lower t = lower d := by
  constructor
  · rintro ⟨front, h⟩
    obtain ⟨a, rest, rfl, ha, hrest⟩ := map_eq_append_iff.mp h
    obtain ⟨b, t, rfl, hb, ht⟩ := map_eq_cons_iff.mp hrest
    rw [toLower_eq_dot_iff] at hb
    subst hb
    exact ⟨t, (mem_afterDots_iff _ _).mpr ⟨a, rfl⟩, ht⟩
  · rintro ⟨t, ht, hlow⟩
    obtain ⟨front, rfl⟩ := (mem_afterDots_iff s t).mp ht
    refine ⟨lower front, ?_⟩
    rw [lower_append, lower_cons, hlow, (toLower_eq_dot_iff _).mpr rfl]

section Match

/-- Whether the options of a rule admit the question and the client. -/
def DomainRule.admits (r : DomainRule) (qbit : Option UInt32) (ctx : ClientContext) :
    Bool :=
  (r.dnsTypes.all fun raw => qbit.any fun bit => parseDnstypeMask raw &&& bit != 0) &&
    !(r.dnsRewrite.isSome && qbit.isNone) &&
    r.client.all fun raw => (ClientScope.parse raw).any (·.admits ctx.ip ctx.name)

/-- Whether a merged rule takes part with this action at this suffix of the
query. -/
def matchesAt (query : Bytes) (qbit : Option UInt32) (ctx : ClientContext)
    (action : RuleAction) (suffix : Bytes) (e : Entry) : Bool :=
  eqIgnoreAsciiCase e.1.1.domain suffix &&
    (suffix.length == query.length || e.1.1.includeSubdomains) &&
    e.1.1.admits qbit ctx && e.2 &&& ctx.policyBit != 0 && e.1.1.action == action

variable {m : DomainIndex} {policies : UInt16} {ms : List Entry}
variable {query : Bytes} {qbit : Option UInt32} {ctx : ClientContext}

lemma Compiled.visible_eq (h : Compiled m policies ms) (hctx : policies &&& ctx.policyBit ≠ 0) (he : ms[i]? = some e) :
    m.visible i ctx = (e.2 &&& ctx.policyBit != 0) := by
  have hmem := mem_of_getElem? he
  rw [DomainIndex.visible, h.policy]
  split
  · next hall =>
    have hmask : e.2 = policies := by
      simpa using all_eq_true.mp hall e hmem
    simpa [hmask] using hctx
  · have hne : (ms.map Prod.snd).isEmpty = false := by
      cases ms with
      | nil => simp at hmem
      | cons a l => rfl
    simp [hne, he, bne]

lemma Compiled.applies_eq (h : Compiled m policies ms) (hctx : policies &&& ctx.policyBit ≠ 0) (he : ms[i]? = some e) (level : Bool) :
    m.applies ⟨off, e.1.1.domain.length, flagsOf e.1.1 e.1.1.client.isSome, e.1.2⟩ i
        level qbit ctx = ((!level || e.1.1.includeSubdomains) && e.1.1.admits qbit ctx &&
        e.2 &&& ctx.policyBit != 0) := by
  obtain ⟨-, hsub, hd, hw, hc⟩ := record_flagsOf e.1.1 e.1.1.client.isSome off
    e.1.1.domain.length e.1.2
  simp only [DomainIndex.applies, hsub, hd, hw, hc, h.visible_eq hctx he,
    DomainIndex.clientAdmits, h.dnstype, h.clients, he, Option.bind_some,
    DomainRule.admits]
  have htype : (!e.1.1.dnsTypes.isSome || qbit.any fun bit =>
      (e.1.1.dnsTypes.map fun raw => (parseDnstypeMask raw, raw)).any fun entry =>
        entry.1 &&& bit != 0) =
      e.1.1.dnsTypes.all fun raw => qbit.any fun bit =>
        parseDnstypeMask raw &&& bit != 0 := by
    cases e.1.1.dnsTypes <;> simp
  have hclient : (!e.1.1.client.isSome ||
      (e.1.1.client.bind ClientScope.parse).any (·.admits ctx.ip ctx.name)) =
      e.1.1.client.all fun raw =>
        (ClientScope.parse raw).any (·.admits ctx.ip ctx.name) := by
    cases e.1.1.client <;> simp
  rw [htype, hclient]
  ac_rfl

/-- Whether record `i` takes part with this action at this suffix of the
query. -/
def DomainIndex.hit (m : DomainIndex) (query : Bytes) (qbit : Option UInt32)
    (ctx : ClientContext) (action : RuleAction) (suffix : Bytes) (i : Nat) : Bool :=
  (m.records[i]?).any fun stored =>
    eqIgnoreAsciiCase (stored.domain m.arena) suffix &&
      m.applies stored i (suffix.length != query.length) qbit ctx &&
      stored.isAllow == decide (action = .allow)

lemma Compiled.hit_eq (h : Compiled m policies ms) (hctx : policies &&& ctx.policyBit ≠ 0) (he : ms[i]? = some e) (action : RuleAction) (suffix : Bytes) :
    m.hit query qbit ctx action suffix i = matchesAt query qbit ctx action suffix e := by
  obtain ⟨off, hrec, hdom⟩ := h.record i e he
  obtain ⟨hallow, -⟩ := record_flagsOf e.1.1 e.1.1.client.isSome off
    e.1.1.domain.length e.1.2
  have haction : (decide (e.1.1.action = .allow) == decide (action = .allow)) =
      (e.1.1.action == action) := by
    cases e.1.1.action <;> cases action <;> rfl
  simp only [DomainIndex.hit, hrec, Option.any_some, Record.domain, hdom,
    h.applies_eq hctx he, hallow, haction, matchesAt, bne, Bool.not_not]
  ac_rfl

lemma Compiled.visitSlot_eq (h : Compiled m policies ms) (query : Bytes) (hi : i < ms.length) (suffix : Bytes) (blocked : Option Nat) :
    m.visitSlot suffix (suffix.length != query.length) qbit ctx blocked
        (packedAt (ms.map fun e => e.1.1) i) = if m.hit query qbit ctx .allow suffix i then .error i
      else .ok (if m.hit query qbit ctx .block suffix i then blocked.or (some i) else blocked) := by
  have he : ms[i]? = some ms[i] := getElem?_eq_getElem hi
  obtain ⟨off, hrec, hdom⟩ := h.record i _ he
  have hsmall : i < 2 ^ 24 := by
    have hsmall := h.small
    simp only [maxRecords, indexMask] at hsmall
    omega
  have hpacked : packedAt (ms.map fun e => e.1.1) i =
      packSlot (tagOf (hashDomain (ms[i]).1.1.domain)) i := by
    simp [packedAt, he]
  simp only [DomainIndex.visitSlot, DomainIndex.hit, hpacked, packSlot_and _ hsmall,
    packSlot_shift _ hsmall, hrec, Option.any_some, Record.domain, hdom]
  by_cases hname : eqIgnoreAsciiCase (ms[i]).1.1.domain suffix = true
  · have htag : tagOf (hashDomain (ms[i]).1.1.domain) = tagOf (hashDomain suffix) := by
      rw [hashDomain_congr ((eqIgnoreAsciiCase_iff _ _).mp hname)]
    simp only [hname, htag, beq_self_eq_true]
    generalize m.applies _ i _ qbit ctx = part
    generalize Record.isAllow _ = allow
    cases part <;> cases allow <;> rfl
  · simp only [Bool.not_eq_true] at hname
    simp only [hname, Bool.and_false, Bool.false_and, Bool.false_eq_true, if_false]

lemma Compiled.not_hit_of_home (h : Compiled m policies ms) (hi : i < ms.length)
    (hhome : slotHome (ms.map fun e => e.1.1) m.slots.length
      (packedAt (ms.map fun e => e.1.1) i) ≠ fastrange (hashDomain suffix) m.slots.length)
    (action : RuleAction) : m.hit query qbit ctx action suffix i = false := by
  have he : ms[i]? = some ms[i] := getElem?_eq_getElem hi
  obtain ⟨off, hrec, hdom⟩ := h.record i _ he
  have hname : eqIgnoreAsciiCase (ms[i]).1.1.domain suffix = false := by
    rw [Bool.eq_false_iff]
    intro hname
    apply hhome
    have hand : packedAt (ms.map fun e => e.1.1) i &&& indexMask = i := by
      have hsmall := h.small
      simp only [maxRecords, indexMask] at hsmall
      exact packSlot_and _ (by omega)
    rw [slotHome, hand, getElem?_map, he]
    simp only [Option.map_some, Option.elim]
    rw [hashDomain_congr ((eqIgnoreAsciiCase_iff _ _).mp hname)]
  simp [DomainIndex.hit, hrec, Record.domain, hdom, hname]

lemma Compiled.probe_eq (h : Compiled m policies ms)
    (query : Bytes) (qbit : Option UInt32) (ctx : ClientContext)
    (suffix : Bytes) (blocked : Option Nat) :
    ∃ slot, probeLoop emptySlot m.slots
        (m.visitSlot suffix (suffix.length != query.length) qbit ctx) m.slots.length
        (fastrange (hashDomain suffix) m.slots.length) blocked =
      some (endingAt slot
        (match (List.range ms.length).find? (m.hit query qbit ctx .allow suffix) with
        | some i => .error i
        | none => .ok (blocked.or
            ((List.range ms.length).find? (m.hit query qbit ctx .block suffix))))) := by
  have hroom := h.room
  refine ⟨(fastrange (hashDomain suffix) m.slots.length +
    (chain emptySlot m.slots (fastrange (hashDomain suffix) m.slots.length)).length) %
      m.slots.length, ?_⟩
  rw [h.slots.probeLoop_eq (fastrange_lt _ (by omega)) (by simpa using hroom)
    (m.visitSlot suffix (suffix.length != query.length) qbit ctx) blocked]
  · congr 2
    rw [foldlM_map]
    exact foldlM_scan_eq (List.range ms.length) _ _
      (fun i hi st => h.visitSlot_eq query (mem_range.mp hi) suffix st) blocked
  · intro v hv hne hhome st
    obtain ⟨i, hi, rfl⟩ := mem_map.mp ((h.slots.mem_iff v).mpr ⟨hv, hne⟩)
    rw [mem_range] at hi
    rw [h.visitSlot_eq query hi, h.not_hit_of_home hi hhome,
      h.not_hit_of_home hi hhome]
    rfl

end Match

section Walk

variable {m : DomainIndex} {policies : UInt16} {ms : List Entry}
variable {query : Bytes} {qbit : Option UInt32} {ctx : ClientContext}

/-- The decisive record of one class: the first one at the most specific suffix
that has any. -/
def DomainIndex.decisive (m : DomainIndex) (query : Bytes) (qbit : Option UInt32)
    (ctx : ClientContext) (action : RuleAction) (suffix : Bytes) : Option Nat :=
  (nameSuffixes suffix).findSome? fun s =>
    (List.range m.records.length).find? (m.hit query qbit ctx action s)

def TierDecision.of (allow block : Option Nat) : TierDecision :=
  match allow, block with
  | some i, _ => .allow i
  | none, some i => .block i
  | none, none => .pass

lemma Compiled.lookupFrom_eq (h : Compiled m policies ms) :
    ∀ (fuel : Nat) (suffix : Bytes) (blocked : Option Nat),
      suffix.length < fuel →
      m.lookupFrom query.length qbit ctx fuel suffix blocked =
        some (.of (m.decisive query qbit ctx .allow suffix)
          (blocked.or (m.decisive query qbit ctx .block suffix)))
  | 0, suffix, blocked, hfuel => absurd hfuel (Nat.not_lt_zero _)
  | fuel + 1, suffix, blocked, hfuel => by
      obtain ⟨slot, hprobe⟩ := h.probe_eq query qbit ctx suffix blocked
      simp only [DomainIndex.lookupFrom, hprobe, Option.bind_eq_bind, Option.bind_some,
        DomainIndex.decisive, nameSuffixes, findSome?_cons, h.recordsLength]
      cases hallow : (List.range ms.length).find? (m.hit query qbit ctx .allow suffix) with
      | some i => rfl
      | none =>
        simp only [endingAt]
        rw [afterDots_eq]
        cases hdot : findByte (· == ch '.') suffix with
        | some rel =>
          have hlt : (suffix.drop (rel + 1)).length < fuel := by
            have := (findIdx?_eq_some_iff_getElem.mp hdot).1
            simp only [length_drop]
            omega
          simp only [Compiled.lookupFrom_eq h fuel _ _ hlt, DomainIndex.decisive,
            h.recordsLength]
          cases blocked <;>
            cases (List.range ms.length).find? (m.hit query qbit ctx .block suffix) <;>
              rfl
        | none =>
          cases blocked <;>
            cases (List.range ms.length).find? (m.hit query qbit ctx .block suffix) <;>
              rfl

/-- One trailing dot is dropped. -/
def dropDot (name : Bytes) : Bytes :=
  (stripSuffix [ch '.'] name).getD name

/-- **The table walk is a search of the records.** -/
theorem Compiled.lookupDomain_eq (h : Compiled m policies ms)
    (name : Bytes) (qbit : Option UInt32) (ctx : ClientContext) :
    m.lookupDomain name qbit ctx =
      some (.of (m.decisive (dropDot name) qbit ctx .allow (dropDot name))
        (m.decisive (dropDot name) qbit ctx .block (dropDot name))) := by
  exact h.lookupFrom_eq _ (dropDot name) none (Nat.lt_succ_self _)

/-- Record `i` takes part in the decision for a name: the name, up to case, is
the record's domain or lies under it, and the record's restrictions are met. -/
def DomainIndex.TakesPart (m : DomainIndex) (name : Bytes) (qbit : Option UInt32)
    (ctx : ClientContext) (action : RuleAction) (i : Nat) : Prop :=
  ∃ stored, m.records[i]? = some stored ∧ stored.isAllow = decide (action = .allow) ∧
    ((lower (dropDot name) = lower (stored.domain m.arena) ∧
        m.applies stored i false qbit ctx = true) ∨
      ((∃ front, lower (dropDot name) = front ++ ch '.' :: lower (stored.domain m.arena)) ∧
        m.applies stored i true qbit ctx = true))

lemma DomainIndex.takesPart_iff (m : DomainIndex) (name : Bytes) (action : RuleAction) (i : Nat) :
    m.TakesPart name qbit ctx action i ↔
      ∃ s ∈ nameSuffixes (dropDot name), m.hit (dropDot name) qbit ctx action s i = true := by
  simp only [DomainIndex.hit, Option.any_eq_true, Bool.and_eq_true, beq_iff_eq,
    eqIgnoreAsciiCase_iff]
  constructor
  · rintro ⟨stored, hr, hkind, ⟨hlow, happ⟩ | ⟨⟨front, hlow⟩, happ⟩⟩
    · refine ⟨dropDot name, mem_cons_self, stored, hr, ⟨hlow.symm, ?_⟩, hkind⟩
      rwa [bne_self_eq_false]
    · obtain ⟨t, ht, heq⟩ := (lower_eq_append_dot_iff _ _).mp ⟨front, hlow⟩
      refine ⟨t, mem_cons_of_mem _ ht, stored, hr, ⟨heq.symm, ?_⟩, hkind⟩
      rwa [bne_iff_ne.mpr (length_lt_of_mem_afterDots ht).ne]
  · rintro ⟨s, hs, stored, hr, ⟨hlow, happ⟩, hkind⟩
    refine ⟨stored, hr, hkind, ?_⟩
    rcases mem_cons.mp hs with rfl | hs
    · rw [bne_self_eq_false] at happ
      exact .inl ⟨hlow.symm, happ⟩
    · rw [bne_iff_ne.mpr (length_lt_of_mem_afterDots hs).ne] at happ
      exact .inr ⟨(lower_eq_append_dot_iff _ _).mpr ⟨s, hs, hlow.symm⟩, happ⟩

/-- What a decision of the domain tier says about its records. -/
def DomainIndex.Verdict (m : DomainIndex) (name : Bytes) (qbit : Option UInt32)
    (ctx : ClientContext) : TierDecision → Prop
  | .allow i => m.TakesPart name qbit ctx .allow i
  | .block i => m.TakesPart name qbit ctx .block i ∧ ∀ j, ¬ m.TakesPart name qbit ctx .allow j
  | .pass => ∀ action j, ¬ m.TakesPart name qbit ctx action j

/-- **The walk misses no record**, whatever the policy. -/
theorem Compiled.lookupDomain_complete (h : Compiled m policies ms)
    (name : Bytes) (qbit : Option UInt32) (ctx : ClientContext) :
    ∃ d, m.lookupDomain name qbit ctx = some d ∧ m.Verdict name qbit ctx d := by
  have hsome : ∀ {action i}, m.decisive (dropDot name) qbit ctx action (dropDot name) = some i →
      m.TakesPart name qbit ctx action i := by
    intro action i hi
    obtain ⟨s, hs, hfind⟩ := exists_of_findSome?_eq_some hi
    exact (m.takesPart_iff name action i).mpr ⟨s, hs, find?_some hfind⟩
  have hnone : ∀ {action}, m.decisive (dropDot name) qbit ctx action (dropDot name) = none →
      ∀ j, ¬ m.TakesPart name qbit ctx action j := by
    intro action hi j htakes
    obtain ⟨s, hs, hhit⟩ := (m.takesPart_iff name action j).mp htakes
    have hlt : j < m.records.length := by
      obtain ⟨stored, hr, -⟩ := htakes
      exact (List.getElem?_eq_some_iff.mp hr).1
    have hfind := findSome?_eq_none_iff.mp hi s hs
    exact find?_eq_none.mp hfind j (mem_range.mpr hlt) hhit
  refine ⟨_, h.lookupDomain_eq name qbit ctx, ?_⟩
  cases hallow : m.decisive (dropDot name) qbit ctx .allow (dropDot name) with
  | some i => exact hsome hallow
  | none =>
    cases hblock : m.decisive (dropDot name) qbit ctx .block (dropDot name) with
    | some i => exact ⟨hsome hblock, hnone hallow⟩
    | none =>
      intro action
      cases action with
      | block => exact hnone hblock
      | allow => exact hnone hallow

lemma Compiled.find_hit_eq (h : Compiled m policies ms) (hctx : policies &&& ctx.policyBit ≠ 0)
    (action : RuleAction) (suffix : Bytes) :
    (List.range m.records.length).find? (m.hit query qbit ctx action suffix) =
      ms.findIdx? (matchesAt query qbit ctx action suffix) := by
  rw [h.recordsLength]
  exact find_range_eq_findIdx ms _ _ fun i e he => h.hit_eq hctx he action suffix

end Walk

section Verdict

/-- The record that a reference names holds this rule, for this list. -/
structure DomainIndex.Names (m : DomainIndex) (i : Nat) (key : DomainRule × Nat) :
    Prop where
  record : ∃ stored : Record, m.records[i]? = some stored ∧
    stored.domain m.arena = key.1.domain ∧
    stored.isAllow = decide (key.1.action = .allow) ∧
    stored.includeSubdomains = key.1.includeSubdomains ∧
    stored.listId = key.2
  dnsTypes : (m.dnstype.lookup i).map Prod.snd = key.1.dnsTypes
  rewrite : m.rewrite.lookup i = key.1.dnsRewrite
  client : (m.clients.lookup i).map ClientScope.raw = key.1.client

/-- When a rule takes part in the decision for a name: the name, up to case, is
the rule's domain or lies under it; the question has a type the rule is
restricted to; a rewrite needs a question; some list that supplied the rule is
visible; and the rule's scope admits the client. -/
structure Applies (added : List Entry) (name : Bytes) (qtype : Option QueryType)
    (ctx : ClientContext) (r : DomainRule) : Prop where
  covers : lower (dropDot name) = lower r.domain ∨
    (r.includeSubdomains = true ∧
      ∃ front, lower (dropDot name) = front ++ ch '.' :: lower r.domain)
  dnstype : ∀ raw, r.dnsTypes = some raw →
    ∃ t, qtype = some t ∧ parseDnstypeMask raw &&& qtypeBit t ≠ 0
  rewrite : r.dnsRewrite.isSome = true → qtype.isSome = true
  visible : ∃ x ∈ added, sameRule r x.1.1 = true ∧ x.2 &&& ctx.policyBit ≠ 0
  client : ∀ raw, r.client = some raw →
    ∃ scope, ClientScope.parse raw = some scope ∧ scope.admits ctx.ip ctx.name = true

/-- The decisive rule of a class: no applicable rule of the class has a longer
domain, and none with as long a domain was added before it. -/
structure Decisive (added : List Entry) (applies : DomainRule → Prop)
    (action : RuleAction) (k : Nat) (key : DomainRule × Nat) : Prop where
  position : (added[k]?).map Prod.fst = some key
  takesPart : applies key.1
  kind : key.1.action = action
  longest : ∀ x ∈ added, applies x.1.1 → x.1.1.action = action →
    x.1.1.domain.length ≤ key.1.domain.length
  earliest : ∀ (j : Nat) (x : Entry), added[j]? = some x → j < k → applies x.1.1 →
    x.1.1.action = action → x.1.1.domain.length < key.1.domain.length

lemma Decisive.mem (h : Decisive added applies action k key) :
    ∃ x ∈ added, x.1 = key := by
  obtain ⟨x, hx, hkey⟩ := Option.map_eq_some_iff.mp h.position
  exact ⟨x, mem_of_getElem? hx, hkey⟩

/-- What a decision says about the rules that were added. -/
def TierDecision.Sound (m : DomainIndex) (added : List Entry)
    (applies : DomainRule → Prop) : TierDecision → Prop
  | .allow i => ∃ k key, Decisive added applies .allow k key ∧ m.Names i key
  | .block i => (∀ x ∈ added, applies x.1.1 → x.1.1.action ≠ .allow) ∧
      ∃ k key, Decisive added applies .block k key ∧ m.Names i key
  | .pass => ∀ x ∈ added, ¬ applies x.1.1

variable {m : DomainIndex} {policies : UInt16} {added ms : List Entry}
variable {name : Bytes} {qtype : Option QueryType} {ctx : ClientContext}

lemma Compiled.names (h : Compiled m policies ms) (he : ms[i]? = some e)
    (hstored : storable e.1.1 = true) : m.Names i e.1 := by
  obtain ⟨off, hrec, hdom⟩ := h.record i e he
  obtain ⟨hallow, hsub, -⟩ := record_flagsOf e.1.1 e.1.1.client.isSome off
    e.1.1.domain.length e.1.2
  refine ⟨⟨_, hrec, hdom, hallow, hsub, rfl⟩, ?_, ?_, ?_⟩
  · rw [h.dnstype, he]
    simp [Function.comp_def]
  · rw [h.rewrite, he]
    rfl
  · rw [h.clients, he]
    exact storable_client hstored

/-- The merged rules of a sequence of additions. -/
def merged (added : List Entry) : List Entry :=
  added.foldl addStep []

lemma merged_eq (added : List Entry) :
    merged added = merge sameKey (· ||| ·) (added.filter fun x => storable x.1.1) := by
  rw [merged, merge, foldl_filter]
  rfl

lemma or_and_ne_zero_iff (a b bit : UInt16) :
    (a ||| b) &&& bit ≠ 0 ↔ a &&& bit ≠ 0 ∨ b &&& bit ≠ 0 := by
  have h : (a ||| b) &&& bit = (a &&& bit) ||| (b &&& bit) := by
    rw [← UInt16.toNat_inj]
    simp [Nat.and_or_distrib_right]
  rw [h, Ne, UInt16.or_eq_zero_iff, not_and_or]

/-- `matchesAt` with the visibility of a rule read off the added rules. -/
def keyAt (added : List Entry) (query : Bytes) (qbit : Option UInt32)
    (ctx : ClientContext) (action : RuleAction) (suffix : Bytes) (key : DomainRule × Nat) : Bool :=
  eqIgnoreAsciiCase key.1.domain suffix &&
    (suffix.length == query.length || key.1.includeSubdomains) &&
    key.1.admits qbit ctx &&
    (added.any fun x => sameRule key.1 x.1.1 && x.2 &&& ctx.policyBit != 0) &&
    key.1.action == action

lemma matchesAt_eq_keyAt (he : e ∈ merge sameKey (· ||| ·) l)
    (query : Bytes) (qbit : Option UInt32) (ctx : ClientContext)
    (action : RuleAction) (suffix : Bytes) :
    matchesAt query qbit ctx action suffix e = keyAt l query qbit ctx action suffix e.1 := by
  have hmask : (e.2 &&& ctx.policyBit != 0) =
      l.any fun x => sameRule e.1.1 x.1.1 && x.2 &&& ctx.policyBit != 0 := by
    have := merge_payload_iff isSame_sameKey (p := fun m => m &&& ctx.policyBit ≠ 0)
      (fun a b => or_and_ne_zero_iff a b _) l e he
    rw [Bool.eq_iff_iff, any_eq_true]
    simpa [sameKey] using this
  rw [matchesAt, keyAt, hmask]

variable {query : Bytes} {qbit : Option UInt32} {action : RuleAction} {suffix : Bytes}

lemma keyAt_congr (a b : DomainRule × Nat) (h : sameKey a b = true) :
    keyAt l query qbit ctx action suffix a = keyAt l query qbit ctx action suffix b := by
  have hvis : (fun x : Entry => sameRule a.1 x.1.1 && x.2 &&& ctx.policyBit != 0) =
      fun x => sameRule b.1 x.1.1 && x.2 &&& ctx.policyBit != 0 := by
    funext x
    congr 1
    rw [Bool.eq_iff_iff]
    exact ⟨isSame_sameRule.trans _ _ _ (isSame_sameRule.symm _ _ h),
      isSame_sameRule.trans _ _ _ h⟩
  obtain ⟨h1, h2, h3, h4, h5, h6⟩ := (sameRule_iff a.1 b.1).mp h
  simp only [keyAt, DomainRule.admits, eqIgnoreAsciiCase, hvis, h1, h2, h3, h4, h5, h6]

lemma find?_merge (l : List Entry) (query : Bytes) (qbit : Option UInt32) (ctx : ClientContext)
    (action : RuleAction) (suffix : Bytes) :
    ((merge sameKey (· ||| ·) l).find? (matchesAt query qbit ctx action suffix)).map Prod.fst =
      (l.map Prod.fst).find? (keyAt l query qbit ctx action suffix) := by
  have hkeys : (merge sameKey (· ||| ·) l).map Prod.fst = distinct sameKey (l.map Prod.fst) :=
    keys_merge isSame_sameKey l
  rw [← find?_distinct keyAt_congr (l.map Prod.fst), ← hkeys, find?_map]
  congr 1
  apply find?_congr
  intro e he
  exact matchesAt_eq_keyAt he query qbit ctx action suffix

lemma eq_of_mem_nameSuffixes (hs : s ∈ nameSuffixes q) (ht : t ∈ nameSuffixes q)
    (hlen : s.length = t.length) : s = t := by
  have hsuffix : ∀ u ∈ nameSuffixes q, u <:+ q := by
    intro u hu
    rcases mem_cons.mp hu with rfl | hu
    · exact suffix_rfl
    · obtain ⟨front, rfl⟩ := (mem_afterDots_iff q u).mp hu
      exact ⟨front ++ [ch '.'], by simp⟩
  have hst : s <:+ t := suffix_of_suffix_length_le (hsuffix s hs) (hsuffix t ht) hlen.le
  exact hst.eq_of_length hlen

lemma admits_iff (r : DomainRule) (qtype : Option QueryType) (ctx : ClientContext) :
    r.admits (qtype.map qtypeBit) ctx = true ↔ (∀ raw, r.dnsTypes = some raw →
        ∃ t, qtype = some t ∧ parseDnstypeMask raw &&& qtypeBit t ≠ 0) ∧
      (r.dnsRewrite.isSome = true → qtype.isSome = true) ∧ (∀ raw, r.client = some raw →
        ∃ scope, ClientScope.parse raw = some scope ∧ scope.admits ctx.ip ctx.name = true) := by
  simp only [DomainRule.admits, Bool.and_eq_true, Option.all_eq_true, Option.any_eq_true,
    and_assoc]
  refine and_congr ?_ (and_congr ?_ Iff.rfl)
  · refine forall_congr' fun raw => imp_congr Iff.rfl ?_
    cases qtype <;> simp
  · cases qtype <;> cases r.dnsRewrite <;> simp

lemma covers_iff (query : Bytes) (r : DomainRule) :
    (lower query = lower r.domain ∨ (r.includeSubdomains = true ∧
        ∃ front, lower query = front ++ ch '.' :: lower r.domain)) ↔
    ∃ s ∈ nameSuffixes query, lower r.domain = lower s ∧
      (s.length = query.length ∨ r.includeSubdomains = true) := by
  constructor
  · rintro (h | ⟨hsub, h⟩)
    · exact ⟨query, mem_cons_self, h.symm, .inl rfl⟩
    · obtain ⟨t, ht, hlow⟩ := (lower_eq_append_dot_iff query r.domain).mp h
      exact ⟨t, mem_cons_of_mem _ ht, hlow.symm, .inr hsub⟩
  · rintro ⟨s, hs, hlow, hlevel⟩
    rcases mem_cons.mp hs with rfl | hs
    · exact .inl hlow.symm
    · have hshort := length_lt_of_mem_afterDots hs
      refine .inr ⟨hlevel.resolve_left hshort.ne, ?_⟩
      exact (lower_eq_append_dot_iff query r.domain).mpr ⟨s, hs, hlow.symm⟩

/-- Every added domain fits a record, as a normalised domain does. -/
def Fits (added : List Entry) : Prop :=
  ∀ x ∈ added, 0 < x.1.1.domain.length ∧ x.1.1.domain.length ≤ 255

lemma storable_of_admits (hlen : 0 < r.domain.length ∧ r.domain.length ≤ 255)
    (h : r.admits qbit ctx = true) : storable r = true := by
  simp only [DomainRule.admits, Bool.and_eq_true] at h
  have hscope : (DomainBuilder.compileScope r).isSome = true := by
    rw [DomainBuilder.compileScope]
    cases hc : r.client with
    | none => rfl
    | some raw =>
      rw [hc] at h
      have hany : (ClientScope.parse raw).any (·.admits ctx.ip ctx.name) = true := h.2
      cases hp : ClientScope.parse raw with
      | none => simp [hp] at hany
      | some scope => simp [hp]
  simp [storable, hlen, hscope]

lemma storable_congr (h : sameRule r s = true) : storable r = storable s := by
  obtain ⟨h1, -, -, -, -, h6⟩ := (sameRule_iff r s).mp h
  have hlen : r.domain.length = s.domain.length := by
    rw [← length_lower r.domain, h1, length_lower]
  simp only [storable, DomainBuilder.compileScope, hlen, h6]

/-- The rules that reach the table. -/
def kept (added : List Entry) : List Entry :=
  added.filter fun x => storable x.1.1

lemma applies_iff (hfits : Fits added) (hx : x ∈ added) (action : RuleAction) :
    (Applies added name qtype ctx x.1.1 ∧ x.1.1.action = action) ↔
    ∃ s ∈ nameSuffixes (dropDot name),
      keyAt (kept added) (dropDot name) (qtype.map qtypeBit) ctx action s x.1 = true := by
  have hvis : x.1.1.admits (qtype.map qtypeBit) ctx = true →
      (((kept added).any fun y => sameRule x.1.1 y.1.1 && y.2 &&& ctx.policyBit != 0) = true
        ↔
      ∃ y ∈ added, sameRule x.1.1 y.1.1 = true ∧ y.2 &&& ctx.policyBit ≠ 0) := by
    intro hadm
    have hst := storable_of_admits (hfits x hx) hadm
    simp only [kept, any_eq_true, mem_filter, Bool.and_eq_true, bne_iff_ne]
    constructor
    · rintro ⟨y, ⟨hy, -⟩, hsame, hbit⟩
      exact ⟨y, hy, hsame, hbit⟩
    · rintro ⟨y, hy, hsame, hbit⟩
      exact ⟨y, ⟨hy, (storable_congr hsame).symm.trans hst⟩, hsame, hbit⟩
  simp only [keyAt, Bool.and_eq_true, eqIgnoreAsciiCase_iff, Bool.or_eq_true, beq_iff_eq]
  constructor
  · rintro ⟨happ, haction⟩
    obtain ⟨s, hs, hlow, hlevel⟩ := (covers_iff _ _).mp happ.covers
    have hadm := (admits_iff x.1.1 qtype ctx).mpr ⟨happ.dnstype, happ.rewrite, happ.client⟩
    exact ⟨s, hs, ⟨⟨⟨hlow, hlevel⟩, hadm⟩, (hvis hadm).mpr happ.visible⟩, haction⟩
  · rintro ⟨s, hs, ⟨⟨⟨hlow, hlevel⟩, hadm⟩, hany⟩, haction⟩
    obtain ⟨hd, hw, hc⟩ := (admits_iff x.1.1 qtype ctx).mp hadm
    exact ⟨⟨(covers_iff _ _).mpr ⟨s, hs, hlow, hlevel⟩, hd, hw, (hvis hadm).mp hany, hc⟩,
      haction⟩

lemma find?_merged (added : List Entry) (query : Bytes) (qbit : Option UInt32) (ctx : ClientContext)
    (action : RuleAction) (suffix : Bytes) :
    ((merged added).find? (matchesAt query qbit ctx action suffix)).map Prod.fst =
      (added.find? fun x => storable x.1.1 &&
        keyAt (kept added) query qbit ctx action suffix x.1).map Prod.fst := by
  rw [merged_eq, find?_merge, find?_map, find?_filter]
  simp [kept]

lemma keyAt_length (h : keyAt added query qbit ctx action suffix key = true) :
    key.1.domain.length = suffix.length := by
  simp only [keyAt, Bool.and_eq_true] at h
  exact eqIgnoreAsciiCase_length h.1.1.1.1

lemma keyAt_admits
    (h : keyAt added query qbit ctx action suffix key = true) : key.1.admits qbit ctx = true := by
  simp only [keyAt, Bool.and_eq_true] at h
  exact h.1.1.2

lemma not_keyAt_of_findIdx?_none (hfits : Fits added)
    (h : (merged added).findIdx? (matchesAt query qbit ctx action suffix) = none) (hx : x ∈ added) : keyAt (kept added) query qbit ctx action suffix x.1 = false := by
  have hfind := find?_merged added query qbit ctx action suffix
  rw [find?_eq_bind_findIdx?_getElem?, h] at hfind
  have hnone := find?_eq_none.mp (Option.map_eq_none_iff.mp hfind.symm) x hx
  rw [Bool.eq_false_iff]
  intro hkey
  exact hnone (by rw [storable_of_admits (hfits x hx) (keyAt_admits hkey), hkey]; rfl)

lemma Compiled.decisive_some (h : Compiled m policies (merged added))
    (hctx : policies &&& ctx.policyBit ≠ 0) (hfits : Fits added)
    (hi : m.decisive (dropDot name) (qtype.map qtypeBit) ctx action (dropDot name) = some i) :
    ∃ k key, Decisive added (Applies added name qtype ctx) action k key ∧ m.Names i key := by
  obtain ⟨longer, s, shorter, hsplit, hfound, hlonger⟩ :=
    findSome?_eq_some_iff.mp hi
  rw [h.find_hit_eq hctx] at hfound
  have hs : s ∈ nameSuffixes (dropDot name) := by simp [hsplit]
  -- the record that was found, and the first added rule that it stores
  obtain ⟨hlt, hmatch, -⟩ := findIdx?_eq_some_iff_getElem.mp hfound
  have he : (merged added)[i]? = some (merged added)[i] := getElem?_eq_getElem hlt
  have hfind := find?_merged added (dropDot name) (qtype.map qtypeBit) ctx action s
  rw [find?_eq_bind_findIdx?_getElem?, hfound, Option.bind_some, he] at hfind
  obtain ⟨x, hx, hkey⟩ := Option.map_eq_some_iff.mp hfind.symm
  obtain ⟨hp, k, hk, rfl, hfirst⟩ := find?_eq_some_iff_getElem.mp hx
  rw [Bool.and_eq_true] at hp
  have happ := (applies_iff hfits (getElem_mem hk) action).mpr ⟨s, hs, hp.2⟩
  have hlen : ∀ y ∈ added, Applies added name qtype ctx y.1.1 → y.1.1.action = action →
      ∃ t ∈ nameSuffixes (dropDot name), y.1.1.domain.length = t.length ∧
        t.length ≤ s.length ∧ keyAt (kept added) (dropDot name) (qtype.map qtypeBit) ctx
          action t y.1 = true := by
    intro y hy happly haction
    obtain ⟨t, ht, hty⟩ := (applies_iff hfits hy action).mp ⟨happly, haction⟩
    refine ⟨t, ht, keyAt_length hty, ?_, hty⟩
    by_contra hlong
    have hin : t ∈ longer := by
      have hpair := nameSuffixes_pairwise (dropDot name)
      rw [hsplit] at ht hpair
      rcases mem_append.mp ht with ht | ht
      · exact ht
      · exfalso
        rcases mem_cons.mp ht with rfl | ht
        · exact hlong le_rfl
        · have := (pairwise_cons.mp (pairwise_append.mp hpair).2.1).1 t ht
          exact hlong this.le
    have hnone := hlonger t hin
    rw [h.find_hit_eq hctx] at hnone
    rw [not_keyAt_of_findIdx?_none hfits hnone hy] at hty
    cases hty
  refine ⟨k, added[k].1, ⟨by simp [hk], happ.1, happ.2, ?_, ?_⟩, ?_⟩
  · intro y hy happly haction
    obtain ⟨t, -, hyt, hts, -⟩ := hlen y hy happly haction
    rw [hyt, keyAt_length hp.2]
    exact hts
  · intro j y hj hjk happly haction
    have hy := mem_of_getElem? hj
    obtain ⟨t, ht, hyt, hts, hkeyt⟩ := hlen y hy happly haction
    rw [hyt, keyAt_length hp.2]
    refine lt_of_le_of_ne hts ?_
    intro heq
    rw [eq_of_mem_nameSuffixes ht hs heq] at hkeyt
    have hj' := hfirst j hjk
    obtain ⟨hjlt, rfl⟩ := List.getElem?_eq_some_iff.mp hj
    rw [storable_of_admits (hfits _ hy) (keyAt_admits hkeyt), hkeyt] at hj'
    cases hj'
  · have hstored := hp.1
    rw [hkey] at hstored ⊢
    exact h.names he hstored

lemma Compiled.decisive_none (h : Compiled m policies (merged added))
    (hctx : policies &&& ctx.policyBit ≠ 0) (hfits : Fits added)
    (hi : m.decisive (dropDot name) (qtype.map qtypeBit) ctx action (dropDot name) = none) (hx : x ∈ added) (happ : Applies added name qtype ctx x.1.1) :
    x.1.1.action ≠ action := by
  intro haction
  obtain ⟨s, hs, hkey⟩ := (applies_iff hfits hx action).mp ⟨happ, haction⟩
  have hnone := findSome?_eq_none_iff.mp hi s hs
  rw [h.find_hit_eq hctx] at hnone
  rw [not_keyAt_of_findIdx?_none hfits hnone hx] at hkey
  cases hkey

/-- **The verdict of the domain tier.** -/
theorem Compiled.lookupDomain_verdict (h : Compiled m policies (merged added))
    (hctx : policies &&& ctx.policyBit ≠ 0) (hfits : Fits added)
    (name : Bytes) (qtype : Option QueryType) :
    ∃ d, m.lookupDomain name (qtype.map qtypeBit) ctx = some d ∧
      d.Sound m added (Applies added name qtype ctx) := by
  refine ⟨_, h.lookupDomain_eq name _ ctx, ?_⟩
  cases hallow : m.decisive (dropDot name) (qtype.map qtypeBit) ctx .allow
      (dropDot name) with
  | some i => exact h.decisive_some hctx hfits hallow
  | none =>
    cases hblock : m.decisive (dropDot name) (qtype.map qtypeBit) ctx .block
        (dropDot name) with
    | some i =>
      exact ⟨fun x hx happ => h.decisive_none hctx hfits hallow hx happ,
        h.decisive_some hctx hfits hblock⟩
    | none =>
      intro x hx happ
      have h1 := h.decisive_none hctx hfits hallow hx happ
      have h2 := h.decisive_none hctx hfits hblock hx happ
      cases haction : x.1.1.action with
      | block => exact h2 haction
      | allow => exact h1 haction

end Verdict

end FastAdHunter.Rules
