import FastAdHunter.Lib.Merge
import FastAdHunter.Rules.DomainTier.Basic

/-!
# The domain builder refines merging

Seen from outside, adding rules one after another is `merge`: a rule that is
already there, up to the identity `sameRule`, joins its visibility into the
stored one, and any other rule is appended. `Rep` relates a builder to the list
of merged rules it stores, arena, records, side maps and dedup table included.
-/

namespace FastAdHunter.Rules

open Lib Net Probing List

/-- The identity of a rule: its domain up to case, action, subdomain flag and
options as written. The list that supplied it is not part of it. -/
def sameRule (r s : DomainRule) : Bool :=
  eqIgnoreAsciiCase r.domain s.domain && r.action == s.action &&
    r.includeSubdomains == s.includeSubdomains && r.dnsTypes == s.dnsTypes &&
    r.dnsRewrite == s.dnsRewrite && r.client == s.client

lemma sameRule_iff (r s : DomainRule) :
    sameRule r s = true ↔ lower r.domain = lower s.domain ∧ r.action = s.action ∧
      r.includeSubdomains = s.includeSubdomains ∧ r.dnsTypes = s.dnsTypes ∧
      r.dnsRewrite = s.dnsRewrite ∧ r.client = s.client := by
  simp [sameRule, and_assoc]

lemma isSame_sameRule : IsSame sameRule where
  refl := by simp [sameRule_iff]
  symm := by
    intro r s h
    rw [sameRule_iff] at h ⊢
    obtain ⟨h1, h2, h3, h4, h5, h6⟩ := h
    exact ⟨h1.symm, h2.symm, h3.symm, h4.symm, h5.symm, h6.symm⟩
  trans := by
    intro r s t h h'
    rw [sameRule_iff] at h h' ⊢
    obtain ⟨h1, h2, h3, h4, h5, h6⟩ := h
    obtain ⟨g1, g2, g3, g4, g5, g6⟩ := h'
    exact ⟨h1.trans g1, h2.trans g2, h3.trans g3, h4.trans g4, h5.trans g5,
      h6.trans g6⟩

/-- A rule the builder keeps: its name fits a record and its client payload, if
it has one, compiles. -/
def storable (rule : DomainRule) : Bool :=
  decide (0 < rule.domain.length) && decide (rule.domain.length ≤ 255) &&
    (DomainBuilder.compileScope rule).isSome

/-- A rule with the list it is attributed to, and the policies that see it. -/
abbrev Entry := (DomainRule × Nat) × UInt16

/-- Attribution is not part of a rule's identity. -/
def sameKey (a b : DomainRule × Nat) : Bool :=
  sameRule a.1 b.1

lemma isSame_sameKey : IsSame sameKey where
  refl := fun a => isSame_sameRule.refl a.1
  symm := fun a b => isSame_sameRule.symm a.1 b.1
  trans := fun a b c => isSame_sameRule.trans a.1 b.1 c.1

/-- What adding a rule does to the merged rules: attribution stays with the
first list, visibility is the union. -/
def addStep (ms : List Entry) (x : Entry) : List Entry :=
  if storable x.1.1 then mergeStep sameKey (· ||| ·) ms x else ms

lemma flagsOf_eq_iff (r s : DomainRule) (c d : Bool) :
    flagsOf r c = flagsOf s d ↔ r.action = s.action ∧ r.includeSubdomains = s.includeSubdomains ∧
      r.dnsTypes.isSome = s.dnsTypes.isSome ∧
      r.dnsRewrite.isSome = s.dnsRewrite.isSome ∧ c = d := by
  simp only [flagsOf]
  generalize r.includeSubdomains = r2
  generalize r.dnsTypes.isSome = r3
  generalize r.dnsRewrite.isSome = r4
  generalize s.includeSubdomains = s2
  generalize s.dnsTypes.isSome = s3
  generalize s.dnsRewrite.isSome = s4
  cases r.action <;> cases s.action <;> revert r2 r3 r4 s2 s3 s4 c d <;> decide

lemma record_flagsOf (rule : DomainRule) (c : Bool) (off len listId : Nat) :
    let r := Record.mk off len (flagsOf rule c) listId
    r.isAllow = decide (rule.action = .allow) ∧
      r.includeSubdomains = rule.includeSubdomains ∧
      r.hasDnstype = rule.dnsTypes.isSome ∧
      r.hasRewrite = rule.dnsRewrite.isSome ∧
      r.hasClient = c := by
  simp only [Record.isAllow, Record.includeSubdomains, Record.hasDnstype,
    Record.hasRewrite, Record.hasClient, flagsOf]
  generalize rule.includeSubdomains = r2
  generalize rule.dnsTypes.isSome = r3
  generalize rule.dnsRewrite.isSome = r4
  cases rule.action <;> revert r2 r3 r4 c <;> decide

lemma hashDomain_eq (bytes : Bytes) : hashDomain bytes = hashExtend fnvBasis (lower bytes) := by
  simp only [hashDomain, hashExtend, lower, foldl_map]

lemma hashDomain_congr (h : lower a = lower b) : hashDomain a = hashDomain b := by
  rw [hashDomain_eq, hashDomain_eq, h]

def entryHash (rule : DomainRule) : UInt64 :=
  identityHash rule.domain (flagsOf rule rule.client.isSome) rule.dnsTypes
    rule.dnsRewrite rule.client

lemma entryHash_congr (h : sameRule r s = true) :
    entryHash r = entryHash s := by
  obtain ⟨h1, h2, h3, h4, h5, h6⟩ := (sameRule_iff r s).mp h
  have hflags : flagsOf r r.client.isSome = flagsOf s s.client.isSome := by
    rw [flagsOf_eq_iff]
    simp [h2, h3, h4, h5, h6]
  rw [entryHash, hflags]
  simp only [entryHash, identityHash, h4, h5, h6, hashDomain_congr h1]

lemma compileScope_spec (h : DomainBuilder.compileScope rule = some scope) :
    scope = rule.client.bind ClientScope.parse ∧ scope.map ClientScope.raw = rule.client ∧
      scope.isSome = rule.client.isSome := by
  simp only [DomainBuilder.compileScope] at h
  cases hc : rule.client with
  | none =>
    rw [hc] at h
    cases h
    simp
  | some raw =>
    rw [hc] at h
    simp only [Option.map_eq_some_iff] at h
    obtain ⟨s, hs, rfl⟩ := h
    simp [hs, ClientScope.raw_of_parse hs]

section Rep

/-- The home slot of record `i` in a dedup table. -/
def dedupHome (rules : List DomainRule) (cap i : Nat) : Nat :=
  fastrange ((rules[i]?).elim 0 entryHash) cap

/-- The builder stores these rules, with the lists they are attributed to and
the policies that see them. -/
structure Rep (b : DomainBuilder) (rules : List DomainRule) (owners : List Nat)
    (masks : List UInt16) : Prop where
  recordsLength : b.records.length = rules.length
  ownersLength : owners.length = rules.length
  record : ∀ (i : Nat) (r : DomainRule) (o : Nat),
    rules[i]? = some r → owners[i]? = some o →
    ∃ off, b.records[i]? =
        some ⟨off, r.domain.length, flagsOf r r.client.isSome, o⟩ ∧
      (b.arena.drop off).take r.domain.length = r.domain
  dnstype : ∀ i : Nat, b.dnstype.lookup i =
    rules[i]?.bind fun r : DomainRule =>
      r.dnsTypes.map fun raw => (parseDnstypeMask raw, raw)
  rewrite : ∀ i : Nat, b.rewrite.lookup i = rules[i]?.bind DomainRule.dnsRewrite
  clients : ∀ i : Nat, b.clients.lookup i =
    rules[i]?.bind fun r : DomainRule => r.client.bind ClientScope.parse
  policy : b.recordPolicy = masks
  masksLength : masks.length = rules.length
  stored : ∀ r ∈ rules, storable r = true
  distinct : rules.Pairwise (fun r s => sameRule r s = false)
  dedup : Holds emptySlot (dedupHome rules b.dedup.length) b.dedup
    (List.range rules.length)
  room : rules.length * 2 ≤ b.dedup.length
  small : rules.length ≤ maxRecords
  arenaLength : b.arena.length = (rules.map fun r => r.domain.length).sum

variable {b : DomainBuilder}
variable {rules : List DomainRule} {owners : List Nat} {masks : List UInt16}

variable {rule : DomainRule} {i : Nat} {scope : Option ClientScope}

lemma storable_client (h : storable rule = true) :
    (rule.client.bind ClientScope.parse).map ClientScope.raw = rule.client := by
  simp only [storable, Bool.and_eq_true] at h
  obtain ⟨scope, hs⟩ := Option.isSome_iff_exists.mp h.2
  have := compileScope_spec hs
  rw [← this.1]
  exact this.2.1

lemma Rep.recordAt (h : Rep b rules owners masks) (hr : rules[i]? = some r) :
    ∃ off o, owners[i]? = some o ∧ b.records[i]? =
        some ⟨off, r.domain.length, flagsOf r r.client.isSome, o⟩ ∧
      (b.arena.drop off).take r.domain.length = r.domain := by
  have hlt : i < owners.length := by
    rw [h.ownersLength]
    exact (List.getElem?_eq_some_iff.mp hr).1
  have ho : owners[i]? = some owners[i] := getElem?_eq_getElem hlt
  obtain ⟨off, hrec, hdom⟩ := h.record i r _ hr ho
  exact ⟨off, _, ho, hrec, hdom⟩

lemma Rep.recordHash_eq (h : Rep b rules owners masks) {rec : Record}
    (hr : rules[i]? = some r) (hrec : b.records[i]? = some rec) :
    b.recordHash rec i = entryHash r := by
  obtain ⟨off, o, -, hrec', hdom⟩ := h.recordAt hr
  rw [hrec] at hrec'
  cases hrec'
  have hstored := h.stored r (mem_of_getElem? hr)
  simp only [DomainBuilder.recordHash, Record.domain, hdom, h.dnstype, h.rewrite,
    h.clients, hr, Option.bind_some, Option.map_map, Function.comp_def,
    storable_client hstored, entryHash, Option.map_id']

lemma Rep.identityMatches_eq (h : Rep b rules owners masks)
    (hr : rules[i]? = some r) (hscope : DomainBuilder.compileScope rule = some scope) :
    b.identityMatches i rule (flagsOf rule scope.isSome) scope = sameRule r rule := by
  obtain ⟨off, o, -, hrec, hdom⟩ := h.recordAt hr
  obtain ⟨-, -, hd, hw, hc⟩ := record_flagsOf r r.client.isSome off
    r.domain.length o
  obtain ⟨-, hraw, hsome⟩ := compileScope_spec hscope
  have hstored := h.stored r (mem_of_getElem? hr)
  have hopt : ∀ x y : Option Bytes, x.isSome = y.isSome →
      ((!x.isSome || x == some (y.getD [])) = true ↔ x = y) := by
    intro x y hxy
    cases x <;> cases y <;> simp_all
  rw [Bool.eq_iff_iff, sameRule_iff]
  simp only [DomainBuilder.identityMatches, hrec, hd, hw, hc, Record.domain, hdom,
    h.dnstype, h.rewrite, h.clients, hr, Option.bind_some, Option.map_map,
    Function.comp_def, storable_client hstored, Option.map_id', hraw,
    Bool.and_eq_true, beq_iff_eq, flagsOf_eq_iff, eqIgnoreAsciiCase_iff, hsome]
  constructor
  · rintro ⟨⟨⟨⟨⟨ha, hs, hdt, hrw, hcl⟩, hl⟩, h1⟩, h2⟩, h3⟩
    exact ⟨hl, ha, hs, (hopt _ _ hdt).mp h1, (hopt _ _ hrw).mp h2,
      (hopt _ _ hcl).mp h3⟩
  · rintro ⟨hl, ha, hs, hdt, hrw, hcl⟩
    exact ⟨⟨⟨⟨⟨ha, hs, by rw [hdt], by rw [hrw], by rw [hcl]⟩, hl⟩,
      (hopt _ _ (by rw [hdt])).mpr hdt⟩, (hopt _ _ (by rw [hrw])).mpr hrw⟩,
      (hopt _ _ (by rw [hcl])).mpr hcl⟩

lemma Rep.index_ne_emptySlot (h : Rep b rules owners masks) (hi : i ≤ rules.length) :
    i ≠ emptySlot := by
  have := h.small
  simp only [maxRecords, indexMask] at this
  simp only [emptySlot]
  omega

lemma Rep.reserveDedup (h : Rep b rules owners masks) :
    ∃ t, b.reserveDedup = some { b with dedup := t } ∧
      Rep { b with dedup := t } rules owners masks ∧ (rules.length + 1) * 2 ≤ t.length := by
  simp only [DomainBuilder.reserveDedup]
  split
  · next hroom =>
    rw [h.recordsLength] at hroom
    exact ⟨b.dedup, rfl, h, hroom⟩
  · have hcap : (rules.length + 1) * 2 ≤ dedupSlots ((b.records.length + 1) * 2) ∧
        0 < dedupSlots ((b.records.length + 1) * 2) := by
      rw [h.recordsLength]
      simp only [dedupSlots]
      omega
    generalize dedupSlots ((b.records.length + 1) * 2) = cap at hcap
    have hmem : ∀ x ∈ b.records.zipIdx, x.2 < rules.length ∧
        dedupHome rules cap x.2 = fastrange (b.recordHash x.1 x.2) cap := by
      intro x hx
      have hrec := mem_zipIdx_iff_getElem?.mp hx
      have hlt : x.2 < rules.length := by
        rw [← h.recordsLength]
        exact (List.getElem?_eq_some_iff.mp hrec).1
      have hr : rules[x.2]? = some rules[x.2] := getElem?_eq_getElem hlt
      refine ⟨hlt, ?_⟩
      simp only [dedupHome, hr, Option.elim, h.recordHash_eq hr hrec]
    have hrange : b.records.zipIdx.map Prod.snd = List.range rules.length := by
      rw [zipIdx_map_snd, h.recordsLength, range_eq_range']
    obtain ⟨t, ht, hlen, hholds⟩ :=
      Holds.placeAll
        (fun x : Record × Nat => fastrange (b.recordHash x.1 x.2) cap)
        Prod.snd b.records.zipIdx
        (holds_replicate emptySlot (dedupHome rules cap) cap)
        (fun x hx => ⟨(hmem x hx).2, by simpa using fastrange_lt _ hcap.2,
          h.index_ne_emptySlot (hmem x hx).1.le⟩)
        (by simpa [hrange] using nodup_range)
        (by simp [h.recordsLength]; omega)
    rw [length_replicate] at hlen
    refine ⟨t, ?_, ?_, by omega⟩
    · rw [ht]
      rfl
    · refine { h with dedup := ?_, room := ?_ }
      · simpa [hlen, hrange] using hholds
      · simp only [hlen]
        omega

lemma Rep.dedupSlotFor (h : Rep b rules owners masks)
    (hscope : DomainBuilder.compileScope rule = some scope) :
    ∃ t, Rep { b with dedup := t } rules owners masks ∧
      (rules.length + 1) * 2 ≤ t.length ∧
      b.dedupSlotFor rule (flagsOf rule scope.isSome) scope =
        some ({ b with dedup := t },
          match rules.findIdx? (fun r => sameRule r rule) with
          | some i => .duplicate i
          | none => .vacant ((fastrange (entryHash rule) t.length +
              (chain emptySlot t (fastrange (entryHash rule) t.length)).length) %
                t.length)) := by
  obtain ⟨t, hreserve, ht, hroom⟩ := h.reserveDedup
  refine ⟨t, ht, hroom, ?_⟩
  obtain ⟨-, hraw, hsome⟩ := compileScope_spec hscope
  have hhash : identityHash rule.domain (flagsOf rule scope.isSome) rule.dnsTypes
      rule.dnsRewrite (scope.map ClientScope.raw) = entryHash rule := by
    rw [hraw, hsome, entryHash]
  have hstart := fastrange_lt (entryHash rule) (show 0 < t.length by omega)
  have hfind := find_range_eq_findIdx rules (fun r => sameRule r rule)
    (fun i => ({ b with dedup := t } : DomainBuilder).identityMatches i rule
      (flagsOf rule scope.isSome) scope)
    (fun i r hr => ht.identityMatches_eq hr hscope)
  have hloop := ht.dedup.probeLoop_eq hstart (by simp; omega)
    (fun (_ : Unit) i =>
      if ({ b with dedup := t } : DomainBuilder).identityMatches i rule
        (flagsOf rule scope.isSome) scope then .error i else .ok ()) ()
    (by
      intro v hv hne hhome _
      have hlt : v < rules.length :=
        mem_range.mp ((ht.dedup.mem_iff v).mpr ⟨hv, hne⟩)
      have hr : rules[v]? = some rules[v] := getElem?_eq_getElem hlt
      apply if_neg
      rw [ht.identityMatches_eq hr hscope]
      intro hsame
      apply hhome
      simp only [dedupHome, hr, Option.elim, entryHash_congr hsame])
  rw [foldlM_stop_eq, hfind] at hloop
  simp only [DomainBuilder.dedupSlotFor, hreserve, hhash, Option.bind_eq_bind,
    Option.bind_some, hloop]
  cases rules.findIdx? (fun r => sameRule r rule) <;> rfl

lemma Rep.push (h : Rep b rules owners masks)
    (hscope : DomainBuilder.compileScope rule = some scope) (hstorable : storable rule = true)
    (hnew : ∀ r ∈ rules, sameRule r rule = false) (hroom : (rules.length + 1) * 2 ≤ b.dedup.length)
    (hsmall : rules.length < maxRecords) (harena : b.arena.length < 4294967296)
    (listId : Nat) (mask : UInt16) :
    ∃ b', b.pushRecord listId rule (flagsOf rule scope.isSome) scope mask
        ((fastrange (entryHash rule) b.dedup.length +
          (chain emptySlot b.dedup (fastrange (entryHash rule) b.dedup.length)).length) %
            b.dedup.length) = some b' ∧
      Rep b' (rules ++ [rule]) (owners ++ [listId]) (masks ++ [mask]) ∧
      b'.lists = b.lists ∧ b'.listPolicy = b.listPolicy ∧ b'.policyUniverse = b.policyUniverse := by
  obtain ⟨hclient, -, hsome⟩ := compileScope_spec hscope
  have hrecords := h.recordsLength
  simp only [DomainBuilder.pushRecord]
  rw [if_neg (by omega), if_neg (by omega)]
  refine ⟨_, rfl, ?_, rfl, rfl, rfl⟩
  have hhome : ∀ i ∈ List.range rules.length,
      dedupHome rules b.dedup.length i =
        dedupHome (rules ++ [rule]) b.dedup.length i := by
    intro i hi
    simp only [dedupHome, getElem?_append_left (mem_range.mp hi)]
  have hself : dedupHome (rules ++ [rule]) b.dedup.length rules.length =
      fastrange (entryHash rule) b.dedup.length := by
    simp [dedupHome]
  have hstart := fastrange_lt (entryHash rule) (show 0 < b.dedup.length by omega)
  have hcap : (List.range rules.length).length < b.dedup.length := by
    rw [length_range]
    omega
  obtain ⟨t, hplace, hlen, hholds⟩ := (h.dedup.congr hhome).place
    (v := rules.length) (by rw [hself]; exact hstart) hcap (by simp)
    (h.index_ne_emptySlot le_rfl)
  rw [hself, place_eq _ hstart (h.dedup.empty_mem hcap), Option.some.injEq] at hplace
  rw [hrecords, hplace]
  exact {
    recordsLength := by simp [hrecords]
    ownersLength := by simp [h.ownersLength]
    record := by
      intro i r o hr ho
      rcases Nat.lt_or_ge i rules.length with hlt | hge
      · rw [getElem?_append_left hlt] at hr
        rw [getElem?_append_left (by rw [h.ownersLength]; exact hlt)] at ho
        obtain ⟨off, hrec, hdom⟩ := h.record i r o hr ho
        refine ⟨off, ?_, take_drop_append hdom _⟩
        rw [getElem?_append_left (by rw [hrecords]; exact hlt), hrec]
      · rw [getElem?_append_right hge] at hr
        rw [getElem?_append_right (by rw [h.ownersLength]; exact hge),
          h.ownersLength] at ho
        obtain ⟨hi, rfl⟩ : i - rules.length = 0 ∧ rule = r := by
          simpa [getElem?_singleton] using hr
        rw [hi] at ho
        simp only [getElem?_cons_zero, Option.some.injEq] at ho
        subst ho
        refine ⟨b.arena.length, ?_, by simp⟩
        rw [getElem?_append_right (by rw [hrecords]; exact hge), hrecords, hi, hsome]
        rfl
    dnstype := lookup_insertSome h.dnstype rule
    rewrite := lookup_insertSome h.rewrite rule
    clients := by
      intro i
      rw [hclient]
      exact lookup_insertSome h.clients rule i
    policy := by simp [h.policy]
    masksLength := by simp [h.masksLength]
    stored := by
      intro r hr
      rcases mem_append.mp hr with hr | hr
      · exact h.stored r hr
      · rw [mem_singleton.mp hr]
        exact hstorable
    distinct := by
      rw [pairwise_append]
      refine ⟨h.distinct, pairwise_singleton _ _, ?_⟩
      intro r hr s hs
      rw [mem_singleton.mp hs]
      exact hnew r hr
    dedup := by
      rw [length_append, length_singleton, range_succ, hlen]
      exact hholds
    room := by
      simp only [length_append, hlen]
      exact hroom
    small := by simpa using hsmall
    arenaLength := by simp [h.arenaLength] }

end Rep

section Adding

/-- The builder stores exactly these merged rules. -/
structure Stores (b : DomainBuilder) (ms : List Entry) : Prop where
  rep : Rep b (ms.map fun e => e.1.1) (ms.map fun e => e.1.2) (ms.map Prod.snd)
  lists : b.listPolicy.length = b.lists.length

/-- What adding rules leaves alone. -/
structure SameLists (b b' : DomainBuilder) : Prop where
  lists : b'.lists = b.lists
  listPolicy : b'.listPolicy = b.listPolicy
  policyUniverse : b'.policyUniverse = b.policyUniverse

/-- The rules do not fit: the arena passes 4 GiB, or the record index 24 bits. -/
def TooLarge (ms : List Entry) : Prop :=
  4294967296 ≤ ((ms.map Prod.fst).map fun k => k.1.domain.length).sum ∨
    maxRecords ≤ ms.length

/-- The result of adding rules: the merged rules are stored, or the source
would have stopped because they do not fit. -/
def Adds (b : DomainBuilder) (result : Option DomainBuilder) (ms : List Entry) :
    Prop :=
  match result with
  | some b' => Stores b' ms ∧ SameLists b b'
  | none => TooLarge ms

variable {b : DomainBuilder} {ms : List Entry}

lemma Stores.default (cap : Nat) (policies : UInt16) :
    Stores ((DomainBuilder.withCapacity cap).setPolicyUniverse policies) [] := by
  refine ⟨?_, rfl⟩
  exact {
    recordsLength := rfl
    ownersLength := rfl
    record := by simp
    dnstype := by simp [DomainBuilder.setPolicyUniverse, DomainBuilder.withCapacity,
      DomainBuilder.default]
    rewrite := by simp [DomainBuilder.setPolicyUniverse, DomainBuilder.withCapacity,
      DomainBuilder.default]
    clients := by simp [DomainBuilder.setPolicyUniverse, DomainBuilder.withCapacity,
      DomainBuilder.default]
    policy := rfl
    masksLength := rfl
    stored := by simp
    distinct := List.Pairwise.nil
    dedup := holds_replicate _ _ _
    room := by simp
    small := by simp
    arenaLength := rfl }

lemma keys_addStep (ms : List Entry) (x : Entry) :
    ∃ more, (addStep ms x).map Prod.fst = ms.map Prod.fst ++ more := by
  simp only [addStep]
  split
  · exact ⟨_, keys_mergeStep ms x⟩
  · exact ⟨[], by simp⟩

lemma TooLarge.addStep (h : TooLarge ms) (x : Entry) : TooLarge (addStep ms x) := by
  obtain ⟨more, hkeys⟩ := keys_addStep ms x
  rcases h with h | h
  · left
    rw [hkeys, map_append, sum_append]
    omega
  · right
    have hlen := congrArg List.length hkeys
    simp only [length_map, length_append] at hlen
    omega

lemma TooLarge.foldl (h : TooLarge ms) (xs : List Entry) :
    TooLarge (xs.foldl Rules.addStep ms) := by
  induction xs generalizing ms with
  | nil => exact h
  | cons x xs ih => exact ih (h.addStep x)

lemma Stores.join (h : Stores b ms) (i : Nat) (mask : UInt16) :
    Stores { b with
        recordPolicy := b.recordPolicy.modify i (· ||| mask)
        duplicatesRemoved := b.duplicatesRemoved + 1 }
      (ms.modify i fun e => (e.1, e.2 ||| mask)) := by
  refine ⟨?_, h.lists⟩
  have hrule : (ms.modify i fun e => (e.1, e.2 ||| mask)).map (fun e => e.1.1) =
      ms.map (fun e => e.1.1) := by
    rw [map_modify (k := id) (by intro x; rfl), modify_id]
  have howner : (ms.modify i fun e => (e.1, e.2 ||| mask)).map (fun e => e.1.2) =
      ms.map (fun e => e.1.2) := by
    rw [map_modify (k := id) (by intro x; rfl), modify_id]
  have hmask : (ms.modify i fun e => (e.1, e.2 ||| mask)).map Prod.snd =
      (ms.map Prod.snd).modify i (· ||| mask) :=
    map_modify (by intro x; rfl) ms i
  rw [hrule, howner, hmask]
  exact { h.rep with
    policy := by rw [← h.rep.policy]
    masksLength := by simp }

lemma Stores.push (h : Stores b ms)
    (hscope : DomainBuilder.compileScope rule = some scope) (hstorable : storable rule = true)
    (hnew : ∀ r ∈ ms.map fun e => e.1.1, sameRule r rule = false)
    (hroom : ((ms.map fun e => e.1.1).length + 1) * 2 ≤ b.dedup.length)
    (listId : Nat) (mask : UInt16) :
    Adds b (b.pushRecord listId rule (flagsOf rule scope.isSome) scope mask
        ((fastrange (entryHash rule) b.dedup.length +
          (chain emptySlot b.dedup (fastrange (entryHash rule) b.dedup.length)).length) %
            b.dedup.length)) (ms ++ [((rule, listId), mask)]) := by
  have hrecords := h.rep.recordsLength
  have harena := h.rep.arenaLength
  rw [length_map] at hrecords
  rcases Nat.lt_or_ge b.arena.length 4294967296 with hsmall | hbig
  · rcases Nat.lt_or_ge ms.length maxRecords with hfew | hmany
    · obtain ⟨b', hpush, hrep, hl, hp, hu⟩ := h.rep.push hscope hstorable hnew hroom
        (by simpa using hfew) hsmall listId mask
      rw [hpush]
      refine ⟨⟨by simpa using hrep, ?_⟩, hl, hp, hu⟩
      rw [hl, hp]
      exact h.lists
    · rw [DomainBuilder.pushRecord, if_neg (by omega), if_pos (by omega)]
      right
      rw [length_append]
      omega
  · rw [DomainBuilder.pushRecord, if_pos hbig]
    left
    rw [harena] at hbig
    simp only [map_append, map_map, sum_append,
      Function.comp_def] at hbig ⊢
    exact Nat.le_add_right_of_le hbig

/-- **Adding one rule is one merge step.** -/
theorem Stores.addRule (h : Stores b ms)
    (hlist : b.listPolicy[listId]? = some mask) (rule : DomainRule) :
    Adds b (b.addRule listId rule) (addStep ms ((rule, listId), mask)) := by
  by_cases hlen : rule.domain.length = 0 ∨ 255 < rule.domain.length
  · have hno : storable rule = false := by
      simp only [storable, Bool.and_eq_false_iff, decide_eq_false_iff_not]
      omega
    rw [DomainBuilder.addRule, if_pos hlen, addStep, if_neg (by simp [hno])]
    exact ⟨h, rfl, rfl, rfl⟩
  rw [DomainBuilder.addRule, if_neg hlen]
  cases hscope : DomainBuilder.compileScope rule with
  | none =>
    have hno : storable rule = false := by simp [storable, hscope]
    rw [addStep, if_neg (by simp [hno])]
    exact ⟨h, rfl, rfl, rfl⟩
  | some scope =>
    have hyes : storable rule = true := by
      simp only [storable, hscope, Option.isSome_some, Bool.and_true,
        Bool.and_eq_true, decide_eq_true_eq]
      omega
    obtain ⟨t, ht, hroom, hslot⟩ := h.rep.dedupSlotFor hscope
    have hstores : Stores { b with dedup := t } ms := ⟨ht, h.lists⟩
    have hfind : (ms.map fun e => e.1.1).findIdx? (fun r => sameRule r rule) =
        ms.findIdx? (fun e => sameRule e.1.1 rule) := by
      rw [findIdx?_map]
      rfl
    rw [addStep, if_pos hyes]
    cases hidx : ms.findIdx? (fun e => sameRule e.1.1 rule) with
    | some i =>
      simp only [hlist, hslot, hfind, hidx]
      rw [mergeStep_of_findIdx_some hidx]
      exact ⟨hstores.join i mask, rfl, rfl, rfl⟩
    | none =>
      have hnew : ∀ r ∈ ms.map fun e => e.1.1, sameRule r rule = false := by
        rw [← hfind, findIdx?_eq_none_iff] at hidx
        exact hidx
      simp only [hlist, hslot, hfind, hidx, Option.bind_eq_bind, Option.bind_some]
      rw [mergeStep_of_findIdx_none hidx]
      have := hstores.push hscope hyes hnew hroom listId mask
      revert this
      cases ({ b with dedup := t } : DomainBuilder).pushRecord listId rule
        (flagsOf rule scope.isSome) scope mask
        ((fastrange (entryHash rule) t.length +
          (chain emptySlot t (fastrange (entryHash rule) t.length)).length) %
            t.length) with
      | none => exact id
      | some b' => exact fun h => ⟨h.1, h.2.1, h.2.2, h.2.3⟩

lemma SameLists.trans (h : SameLists b₁ b₂) (h' : SameLists b₂ b₃) :
    SameLists b₁ b₃ :=
  ⟨h'.lists.trans h.lists, h'.listPolicy.trans h.listPolicy,
    h'.policyUniverse.trans h.policyUniverse⟩

lemma Stores.addListMasked (h : Stores b ms) (hroom : b.lists.length < 65536)
    (name : Bytes) (mask : UInt16) :
    ∃ b', b.addListMasked name mask = some (b', b.lists.length) ∧
      Stores b' ms ∧ b'.lists = b.lists ++ [name] ∧ b'.policyUniverse = b.policyUniverse ∧
      b'.listPolicy[b.lists.length]? = some mask := by
  refine ⟨_, if_pos hroom, ⟨{ h.rep with }, ?_⟩, rfl, rfl, ?_⟩
  · simp [h.lists]
  · simp [← h.lists]

end Adding

lemma packSlot_eq (tag : Nat) (hi : i < 2 ^ 24) :
    packSlot tag i = tag * 2 ^ 24 + i := by
  rw [packSlot, indexBits, ← Nat.shiftLeft_add_eq_or_of_lt hi, Nat.shiftLeft_eq]

lemma packSlot_and (tag : Nat) (hi : i < 2 ^ 24) :
    packSlot tag i &&& indexMask = i := by
  have : indexMask = 2 ^ 24 - 1 := rfl
  rw [packSlot_eq tag hi, this, Nat.and_two_pow_sub_one_eq_mod]
  omega

lemma packSlot_shift (tag : Nat) (hi : i < 2 ^ 24) :
    packSlot tag i >>> indexBits = tag := by
  rw [packSlot_eq tag hi, indexBits, Nat.shiftRight_eq_div_pow]
  omega

lemma packSlot_ne_emptySlot (tag : Nat) (hi : i < maxRecords) :
    packSlot tag i ≠ emptySlot := by
  simp only [maxRecords, indexMask] at hi
  rw [packSlot_eq tag (by omega), emptySlot]
  omega

/-- The packed slot of record `i`. -/
def packedAt (rules : List DomainRule) (i : Nat) : Nat :=
  packSlot (tagOf (hashDomain ((rules[i]?).elim [] DomainRule.domain))) i

def slotHome (rules : List DomainRule) (cap packed : Nat) : Nat :=
  fastrange (hashDomain ((rules[packed &&& indexMask]?).elim [] DomainRule.domain)) cap

/-- The compiled index stores these merged rules. -/
structure Compiled (m : DomainIndex) (policies : UInt16) (ms : List Entry) : Prop where
  recordsLength : m.records.length = ms.length
  record : ∀ (i : Nat) (e : Entry), ms[i]? = some e →
    ∃ off, m.records[i]? =
        some ⟨off, e.1.1.domain.length, flagsOf e.1.1 e.1.1.client.isSome, e.1.2⟩ ∧
      (m.arena.drop off).take e.1.1.domain.length = e.1.1.domain
  dnstype : ∀ i : Nat, m.dnstype.lookup i =
    ms[i]?.bind fun e : Entry =>
      e.1.1.dnsTypes.map fun raw => (parseDnstypeMask raw, raw)
  rewrite : ∀ i : Nat, m.rewrite.lookup i =
    ms[i]?.bind fun e : Entry => e.1.1.dnsRewrite
  clients : ∀ i : Nat, m.clients.lookup i =
    ms[i]?.bind fun e : Entry => e.1.1.client.bind ClientScope.parse
  policy : m.policyMask =
    if ms.all (fun e => e.2 == policies) then [] else ms.map Prod.snd
  slots : Holds emptySlot (slotHome (ms.map fun e => e.1.1) m.slots.length) m.slots
    ((List.range ms.length).map (packedAt (ms.map fun e => e.1.1)))
  room : ms.length < m.slots.length
  small : ms.length ≤ maxRecords

/-- **Building keeps the stored rules and always succeeds.** -/
theorem Stores.build (h : Stores b ms) :
    ∃ m, b.build = some m ∧ Compiled m b.policyUniverse ms ∧ m.lists = b.lists := by
  have hcount := h.rep.recordsLength
  have hsmall := h.rep.small
  rw [length_map] at hcount hsmall
  have hcap : ms.length < tableSlots b.records.length := by
    rw [hcount, tableSlots]
    omega
  simp only [DomainBuilder.build]
  generalize tableSlots b.records.length = cap at hcap
  have hat : ∀ x ∈ b.records.zipIdx, x.2 < ms.length ∧
      ((ms.map fun e => e.1.1)[x.2]?).elim [] DomainRule.domain = x.1.domain b.arena := by
    intro x hx
    have hrec := mem_zipIdx_iff_getElem?.mp hx
    have hlt : x.2 < ms.length := by
      rw [← hcount]
      exact (List.getElem?_eq_some_iff.mp hrec).1
    have hr : (ms.map fun e => e.1.1)[x.2]? = some (ms[x.2]).1.1 := by simp [hlt]
    obtain ⟨off, o, -, hrec', hdom⟩ := h.rep.recordAt hr
    rw [hrec] at hrec'
    refine ⟨hlt, ?_⟩
    rw [hr, Option.some.inj hrec']
    exact hdom.symm
  have hvalue : ∀ x ∈ b.records.zipIdx,
      packSlot (tagOf (hashDomain (x.1.domain b.arena))) x.2 =
        packedAt (ms.map fun e => e.1.1) x.2 := by
    intro x hx
    rw [packedAt, (hat x hx).2]
  have hmap : b.records.zipIdx.map (fun x =>
      packSlot (tagOf (hashDomain (x.1.domain b.arena))) x.2) =
        (List.range ms.length).map (packedAt (ms.map fun e => e.1.1)) := by
    rw [map_congr_left hvalue, ← hcount, range_eq_range',
      ← zipIdx_map_snd, map_map]
    rfl
  have hindex : ∀ i < ms.length,
      packedAt (ms.map fun e => e.1.1) i &&& indexMask = i := by
    intro i hi
    simp only [maxRecords, indexMask] at hsmall
    exact packSlot_and _ (by omega)
  have hnodup : ((List.range ms.length).map (packedAt (ms.map fun e => e.1.1))).Nodup := by
    refine List.Nodup.map_on ?_ nodup_range
    intro i hi j hj hij
    rw [← hindex i (mem_range.mp hi), ← hindex j (mem_range.mp hj), hij]
  obtain ⟨t, ht, hlen, hholds⟩ := Holds.placeAll
    (fun x : Record × Nat => fastrange (hashDomain (x.1.domain b.arena)) cap)
    (fun x => packSlot (tagOf (hashDomain (x.1.domain b.arena))) x.2)
    b.records.zipIdx
    (holds_replicate emptySlot (slotHome (ms.map fun e => e.1.1) cap) cap)
    (by
      intro x hx
      refine ⟨?_, by simpa using fastrange_lt _ (by omega), ?_⟩
      · rw [hvalue x hx, slotHome, hindex _ (hat x hx).1, (hat x hx).2]
      · exact packSlot_ne_emptySlot _ (by have := (hat x hx).1; omega))
    (by rw [nil_append, hmap]; exact hnodup)
    (by simp; omega)
  rw [length_replicate] at hlen
  rw [nil_append, hmap] at hholds
  refine ⟨_, by rw [ht]; rfl, ?_, rfl⟩
  exact {
    recordsLength := hcount
    record := by
      intro i e he
      have hr : (ms.map fun e => e.1.1)[i]? = some e.1.1 := by simp [he]
      have ho : (ms.map fun e => e.1.2)[i]? = some e.1.2 := by simp [he]
      exact h.rep.record i e.1.1 e.1.2 hr ho
    dnstype := by
      intro i
      rw [h.rep.dnstype, getElem?_map]
      cases ms[i]? <;> rfl
    rewrite := by
      intro i
      rw [h.rep.rewrite, getElem?_map]
      cases ms[i]? <;> rfl
    clients := by
      intro i
      rw [h.rep.clients, getElem?_map]
      cases ms[i]? <;> rfl
    policy := by
      rw [h.rep.policy, all_map]
      rfl
    slots := by
      simp only [hlen]
      exact hholds
    room := by simp only [hlen]; exact hcap
    small := hsmall }

end FastAdHunter.Rules
