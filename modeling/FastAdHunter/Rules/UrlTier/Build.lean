import FastAdHunter.Lib.Merge
import FastAdHunter.Rules.UrlTier.Layout

/-!
# The URL builder refines merging

As in the domain tier, adding URL rules one after another is `merge`: a rule
that is there already, up to `sameUrlRule`, joins its visibility into the stored
one, and any other rule is appended. `Stores` relates a builder to the merged
rules it stores.
-/

namespace FastAdHunter.Rules.Url

open Lib Net Probing List

/-- The identity of a rule. The list that supplied it is not part of it. -/
def sameUrlRule (r s : UrlRule) : Bool :=
  r.pattern == s.pattern && r.action == s.action && r.anchor == s.anchor &&
    r.endAnchored == s.endAnchored && r.matchCase == s.matchCase && r.party == s.party &&
    r.resourceTypes == s.resourceTypes && r.domains.getD [] == s.domains.getD [] &&
    r.methods == s.methods && r.client == s.client

/-- A rule with the list it is attributed to, and the policies that see it. -/
abbrev UrlEntry := (UrlRule × Nat) × UInt16

def sameUrlKey (a b : UrlRule × Nat) : Bool :=
  sameUrlRule a.1 b.1

lemma isSame_sameUrlKey : IsSame sameUrlKey where
  refl := by simp [sameUrlKey, sameUrlRule]
  symm := by
    intro a b h
    simp only [sameUrlKey, sameUrlRule, Bool.and_eq_true, beq_iff_eq] at h ⊢
    simp [h]
  trans := by
    intro a b c h h'
    simp only [sameUrlKey, sameUrlRule, Bool.and_eq_true, beq_iff_eq] at h h' ⊢
    simp [h, h']

/-- A rule the builder keeps: its texts fit a record and its client payload, if
it has one, compiles. -/
def urlStorable (rule : UrlRule) : Bool :=
  decide (0 < rule.pattern.length) && decide (rule.pattern.length ≤ 65535) &&
    decide ((rule.domains.getD []).length ≤ 65535) &&
    (UrlIndexBuilder.compileScope rule).isSome

/-- What adding a rule does to the merged rules. -/
def addUrlStep (ms : List UrlEntry) (x : UrlEntry) : List UrlEntry :=
  if urlStorable x.1.1 then mergeStep sameUrlKey (· ||| ·) ms x else ms

lemma record_flagsOf (rule : UrlRule) (r : Record) (h : r.flags = flagsOf rule) :
    r.isAllow = decide (rule.action = .allow) ∧ r.endAnchored = rule.endAnchored ∧
      r.matchCase = rule.matchCase ∧ r.hasMethods = rule.methods.isSome ∧
      r.hasClient = rule.client.isSome ∧ r.anchor = rule.anchor ∧ r.party = rule.party := by
  simp only [Record.isAllow, Record.endAnchored, Record.matchCase, Record.hasMethods,
    Record.hasClient, Record.anchor, Record.party, h, flagsOf]
  generalize rule.endAnchored = e
  generalize rule.matchCase = c
  generalize rule.methods.isSome = m
  generalize rule.client.isSome = k
  cases rule.action <;> cases rule.anchor <;> cases rule.party <;> revert e c m k <;> decide

lemma flagsOf_eq_iff (r s : UrlRule) :
    flagsOf r = flagsOf s ↔
      r.action = s.action ∧ r.endAnchored = s.endAnchored ∧ r.matchCase = s.matchCase ∧
        r.methods.isSome = s.methods.isSome ∧ r.client.isSome = s.client.isSome ∧
        r.anchor = s.anchor ∧ r.party = s.party := by
  constructor
  · intro h
    obtain ⟨h1, h2, h3, h4, h5, h6, h7⟩ := record_flagsOf r ⟨0, 0, 0, 0, 0, flagsOf r⟩ rfl
    obtain ⟨g1, g2, g3, g4, g5, g6, g7⟩ := record_flagsOf s ⟨0, 0, 0, 0, 0, flagsOf r⟩ h
    refine ⟨?_, h2.symm.trans g2, h3.symm.trans g3, h4.symm.trans g4, h5.symm.trans g5,
      h6.symm.trans g6, h7.symm.trans g7⟩
    have hallow := h1.symm.trans g1
    revert hallow
    cases r.action <;> cases s.action <;> simp
  · rintro ⟨h1, h2, h3, h4, h5, h6, h7⟩
    simp only [flagsOf, h1, h2, h3, h4, h5, h6, h7]

section Stores

/-- A record and the arenas around it hold this rule. -/
structure Decodes (patterns domains : Bytes) (r : Record) (rule : UrlRule) : Prop where
  pattern : (patterns.drop r.patOff).take r.patLen = rule.pattern
  domains : (domains.drop r.domOff).take r.domLen = rule.domains.getD []
  patLen : r.patLen = rule.pattern.length
  domLen : r.domLen = (rule.domains.getD []).length
  types : r.types = rule.resourceTypes
  flags : r.flags = flagsOf rule

lemma Decodes.append {patterns domains : Bytes}
    (h : Decodes patterns domains r rule) (more more' : Bytes) :
    Decodes (patterns ++ more) (domains ++ more') r rule := by
  refine { h with pattern := ?_, domains := ?_ }
  · have := h.pattern
    rw [h.patLen] at this ⊢
    exact take_drop_append this more
  · have := h.domains
    rw [h.domLen] at this ⊢
    exact take_drop_append this more'

def urlIdentity (rule : UrlRule) : UInt64 :=
  UrlIndexBuilder.identityHash rule.pattern (rule.domains.getD []) (flagsOf rule) rule

def scopeOf (rule : UrlRule) : Option ClientScope :=
  rule.client.bind ClientScope.parse

/-- The builder stores these rules, with the lists they are attributed to and
the policies that see them. -/
structure Rep (b : UrlIndexBuilder) (rules : List UrlRule) (owners : List Nat)
    (masks : List UInt16) : Prop where
  recordsLength : b.records.length = rules.length
  record : ∀ (i : Nat) (rule : UrlRule), rules[i]? = some rule →
    ∃ r, b.records[i]? = some r ∧ Decodes b.patterns b.domains r rule
  listIds : b.listIds = owners
  policy : b.policyMask = masks
  methods : ∀ i : Nat, b.methods.lookup i = rules[i]?.bind UrlRule.methods
  clients : ∀ i : Nat, b.clients.lookup i = rules[i]?.bind scopeOf
  stored : ∀ rule ∈ rules, urlStorable rule = true
  dedup : b.dedup = (rules.map urlIdentity).zipIdx
  named : b.namedClientScopes = rules.any fun rule => (scopeOf rule).any (·.namesAClient)
  patLens : b.records.map Record.patLen = rules.map fun rule => rule.pattern.length
  patterns : b.patterns.length = (rules.map fun rule => rule.pattern.length).sum
  domains : b.domains.length = (rules.map fun rule => (rule.domains.getD []).length).sum
  small : b.patterns.length < 4294967296 + 65536

/-- The builder stores exactly these merged rules. -/
def Stores (b : UrlIndexBuilder) (ms : List UrlEntry) : Prop :=
  Rep b (ms.map fun e => e.1.1) (ms.map fun e => e.1.2) (ms.map Prod.snd)

lemma Rep.fits (h : Rep b rules owners masks) : b.Fits :=
  ⟨by rw [h.patLens, h.patterns], h.small⟩

lemma stores_default : Stores .default [] where
  recordsLength := rfl
  record := by simp
  listIds := rfl
  policy := rfl
  methods := by simp [UrlIndexBuilder.default]
  clients := by simp [UrlIndexBuilder.default]
  stored := by simp
  dedup := rfl
  named := rfl
  patLens := rfl
  patterns := rfl
  domains := rfl
  small := by simp [UrlIndexBuilder.default]

lemma compileScope_eq (h : UrlIndexBuilder.compileScope rule = some scope) :
    scope = scopeOf rule ∧ (scopeOf rule).map ClientScope.raw = rule.client := by
  simp only [UrlIndexBuilder.compileScope] at h
  cases hc : rule.client with
  | none =>
    rw [hc] at h
    cases h
    simp [scopeOf, hc]
  | some raw =>
    rw [hc] at h
    obtain ⟨s, hs, rfl⟩ := Option.map_eq_some_iff.mp h
    simp [scopeOf, hc, hs, ClientScope.raw_of_parse hs]

variable {b : UrlIndexBuilder}
variable {rules : List UrlRule} {owners : List Nat} {masks : List UInt16}

lemma Rep.identityMatches_eq (h : Rep b rules owners masks) {stored : UrlRule}
    (he : rules[i]? = some stored) (rule : UrlRule) :
    b.identityMatches i rule.pattern (rule.domains.getD []) (flagsOf rule) rule =
      sameUrlRule stored rule := by
  obtain ⟨r, hr, hdec⟩ := h.record i stored he
  have hstored := h.stored stored (mem_of_getElem? he)
  simp only [urlStorable, Bool.and_eq_true] at hstored
  obtain ⟨scope, hscope⟩ := Option.isSome_iff_exists.mp hstored.2
  have hclient := (compileScope_eq hscope).2
  rw [Bool.eq_iff_iff]
  simp only [UrlIndexBuilder.identityMatches, hr, Option.any_some, hdec.flags, hdec.types,
    UrlIndexBuilder.patternOf, hdec.pattern, UrlIndexBuilder.domainsOf, hdec.domains,
    h.methods, h.clients, he, Option.bind_some, hclient, Bool.and_eq_true, beq_iff_eq,
    flagsOf_eq_iff, sameUrlRule]
  constructor
  · rintro ⟨⟨⟨⟨⟨⟨ha, hea, hmc, -, -, han, hp⟩, ht⟩, hpat⟩, hdom⟩, hm⟩, hc⟩
    exact ⟨⟨⟨⟨⟨⟨⟨⟨⟨hpat, ha⟩, han⟩, hea⟩, hmc⟩, hp⟩, ht⟩, hdom⟩, hm⟩, hc⟩
  · rintro ⟨⟨⟨⟨⟨⟨⟨⟨⟨hpat, ha⟩, han⟩, hea⟩, hmc⟩, hp⟩, ht⟩, hdom⟩, hm⟩, hc⟩
    exact ⟨⟨⟨⟨⟨⟨ha, hea, hmc, by rw [hm], by rw [hc], han, hp⟩, ht⟩, hpat⟩, hdom⟩, hm⟩, hc⟩

lemma urlIdentity_congr (h : sameUrlRule r s = true) :
    urlIdentity r = urlIdentity s := by
  simp only [sameUrlRule, Bool.and_eq_true, beq_iff_eq] at h
  obtain ⟨⟨⟨⟨⟨⟨⟨⟨⟨hpat, ha⟩, han⟩, hea⟩, hmc⟩, hp⟩, ht⟩, hdom⟩, hm⟩, hc⟩ := h
  have hflags : flagsOf r = flagsOf s :=
    (flagsOf_eq_iff r s).mpr ⟨ha, hea, hmc, by rw [hm], by rw [hc], han, hp⟩
  simp only [urlIdentity, UrlIndexBuilder.identityHash, hpat, hdom, hflags, ht]

lemma Rep.dedup_find (h : Rep b rules owners masks) (rule : UrlRule) :
    (b.dedup.find? fun entry => entry.1 == urlIdentity rule &&
        b.identityMatches entry.2 rule.pattern (rule.domains.getD []) (flagsOf rule)
          rule).map Prod.snd = rules.findIdx? fun stored => sameUrlRule stored rule := by
  rw [h.dedup]
  apply find?_zipIdx_eq_findIdx
  intro i stored he
  rw [h.identityMatches_eq he]
  cases hsame : sameUrlRule stored rule with
  | false => simp
  | true => simp [urlIdentity_congr hsame]

lemma Rep.push (h : Rep b rules owners masks) (hstorable : urlStorable rule = true)
    (hrecords : rules.length < 4294967296) (hpatterns : b.patterns.length < 4294967296)
    (hdomains : b.domains.length < 4294967296) (listId : Nat) (mask : UInt16) :
    ∃ b', b.push listId rule (rule.domains.getD []) (scopeOf rule) mask (urlIdentity rule) =
        some b' ∧ Rep b' (rules ++ [rule]) (owners ++ [listId]) (masks ++ [mask]) := by
  have hlen := h.recordsLength
  have hshort : rule.pattern.length ≤ 65535 := by
    simp only [urlStorable, Bool.and_eq_true, decide_eq_true_eq] at hstorable
    exact hstorable.1.1.2
  rw [UrlIndexBuilder.push, if_neg (by omega)]
  refine ⟨_, rfl, ?_⟩
  exact {
    recordsLength := by simp [hlen]
    record := by
      intro i stored hi
      rcases Nat.lt_or_ge i rules.length with hlt | hge
      · rw [getElem?_append_left hlt] at hi
        obtain ⟨r, hr, hdec⟩ := h.record i stored hi
        exact ⟨r, by rw [getElem?_append_left (by omega), hr], hdec.append _ _⟩
      · rw [getElem?_append_right hge] at hi
        obtain ⟨hzero, rfl⟩ : i - rules.length = 0 ∧ rule = stored := by
          simpa [getElem?_singleton] using hi
        refine ⟨_, by rw [getElem?_append_right (by omega), hlen, hzero]; rfl, ?_⟩
        exact ⟨by simp, by simp, rfl, rfl, rfl, rfl⟩
    listIds := by simp [h.listIds]
    policy := by simp [h.policy]
    methods := by
      rw [hlen]
      exact lookup_insertSome h.methods rule
    clients := by
      rw [hlen]
      exact lookup_insertSome h.clients rule
    stored := by
      intro stored hmem
      rcases mem_append.mp hmem with hmem | hmem
      · exact h.stored stored hmem
      · rw [mem_singleton.mp hmem]
        exact hstorable
    dedup := by simp [h.dedup, hlen, zipIdx_append]
    named := by simp [h.named]
    patLens := by simp [h.patLens]
    patterns := by simp [h.patterns]
    domains := by simp [h.domains]
    small := by
      simp only [length_append]
      omega }

end Stores

section Adding

/-- The rules do not fit: an arena passes 4 GiB, or the record index 32 bits. -/
def UrlTooLarge (ms : List UrlEntry) : Prop :=
  4294967296 ≤ ms.length ∨
    4294967296 ≤ ((ms.map Prod.fst).map fun k => k.1.pattern.length).sum ∨
    4294967296 ≤ ((ms.map Prod.fst).map fun k => (k.1.domains.getD []).length).sum

/-- The result of adding rules: the merged rules are stored, or the source
would have stopped because they do not fit. -/
def Adds (result : Option UrlIndexBuilder) (ms : List UrlEntry) : Prop :=
  match result with
  | some b => Stores b ms
  | none => UrlTooLarge ms

lemma UrlTooLarge.addStep (h : UrlTooLarge ms) (x : UrlEntry) :
    UrlTooLarge (addUrlStep ms x) := by
  obtain ⟨more, hkeys⟩ : ∃ more, (addUrlStep ms x).map Prod.fst = ms.map Prod.fst ++ more := by
    simp only [addUrlStep]
    split
    · exact ⟨_, keys_mergeStep ms x⟩
    · exact ⟨[], by simp⟩
  have hlen := congrArg List.length hkeys
  simp only [length_map, length_append] at hlen
  simp only [UrlTooLarge, hkeys, map_append, sum_append] at h ⊢
  omega

lemma UrlTooLarge.foldl (h : UrlTooLarge ms) (xs : List UrlEntry) :
    UrlTooLarge (xs.foldl addUrlStep ms) := by
  induction xs generalizing ms with
  | nil => exact h
  | cons x xs ih => exact ih (h.addStep x)

variable {b : UrlIndexBuilder} {ms : List UrlEntry}

lemma Stores.join (h : Stores b ms) (i : Nat) (mask : UInt16) :
    Stores { b with
        policyMask := b.policyMask.modify i (· ||| mask)
        duplicatesRemoved := b.duplicatesRemoved + 1 }
      (ms.modify i fun e => (e.1, e.2 ||| mask)) := by
  have hkeys : ∀ {β : Type} (f : UrlRule × Nat → β),
      (ms.modify i fun e => (e.1, e.2 ||| mask)).map (fun e => f e.1) =
        ms.map (fun e => f e.1) := by
    intro β f
    rw [map_modify (k := id) (by intro x; rfl), modify_id]
  have hmask : (ms.modify i fun e => (e.1, e.2 ||| mask)).map Prod.snd =
      (ms.map Prod.snd).modify i (· ||| mask) :=
    map_modify (by intro x; rfl) ms i
  rw [Stores, hkeys Prod.fst, hkeys Prod.snd, hmask]
  exact { h with policy := congrArg (·.modify i (· ||| mask)) h.policy }

lemma Stores.push (h : Stores b ms) (hstorable : urlStorable rule = true)
    (listId : Nat) (mask : UInt16) :
    Adds (b.push listId rule (rule.domains.getD []) (scopeOf rule) mask (urlIdentity rule))
      (ms ++ [((rule, listId), mask)]) := by
  have hrecords := Rep.recordsLength h
  have hpatterns := Rep.patterns h
  have hdomains := Rep.domains h
  by_cases hbig : 4294967296 ≤ b.records.length ∨ 4294967296 ≤ b.patterns.length ∨
      4294967296 ≤ b.domains.length
  · rw [UrlIndexBuilder.push, if_pos hbig]
    rw [hrecords, hpatterns, hdomains] at hbig
    simp only [map_map, length_map] at hbig
    simp only [Adds, UrlTooLarge, map_append, map_map, sum_append,
      length_append, Function.comp_def]
    rcases hbig with hbig | hbig | hbig
    · exact .inl (Nat.le_add_right_of_le hbig)
    · exact .inr (.inl (Nat.le_add_right_of_le hbig))
    · exact .inr (.inr (Nat.le_add_right_of_le hbig))
  · rw [length_map] at hrecords
    obtain ⟨b', hpush, hrep⟩ := Rep.push h hstorable (by rw [length_map]; omega) (by omega)
      (by omega) listId mask
    rw [hpush]
    simpa [Adds, Stores] using hrep

/-- **Adding one rule is one merge step.** -/
theorem Stores.add (h : Stores b ms) (listId : Nat) (rule : UrlRule) (mask : UInt16) :
    Adds (b.add listId rule mask) (addUrlStep ms ((rule, listId), mask)) := by
  by_cases hlen : rule.pattern.length = 0 ∨ 65535 < rule.pattern.length ∨
      65535 < (rule.domains.getD []).length
  · have hno : urlStorable rule = false := by
      simp only [urlStorable, Bool.and_eq_false_iff, decide_eq_false_iff_not]
      omega
    rw [UrlIndexBuilder.add, if_pos hlen, addUrlStep, if_neg (by simp [hno])]
    exact h
  rw [UrlIndexBuilder.add, if_neg hlen]
  cases hscope : UrlIndexBuilder.compileScope rule with
  | none =>
    have hno : urlStorable rule = false := by simp [urlStorable, hscope]
    rw [addUrlStep, if_neg (by simp [hno])]
    exact h
  | some scope =>
    have hyes : urlStorable rule = true := by
      simp only [urlStorable, hscope, Option.isSome_some, Bool.and_true, Bool.and_eq_true,
        decide_eq_true_eq]
      omega
    obtain ⟨rfl, -⟩ := compileScope_eq hscope
    have hfind := Rep.dedup_find h rule
    rw [findIdx?_map] at hfind
    rw [addUrlStep, if_pos hyes]
    rw [urlIdentity] at hfind
    revert hfind
    dsimp only
    generalize b.dedup.find? _ = found
    intro hfind
    cases found with
    | some entry =>
      rw [mergeStep_of_findIdx_some hfind.symm]
      exact h.join entry.2 mask
    | none =>
      rw [mergeStep_of_findIdx_none hfind.symm]
      exact h.push hyes listId mask

end Adding

end FastAdHunter.Rules.Url
