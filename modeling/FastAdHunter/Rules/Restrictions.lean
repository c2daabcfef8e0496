import FastAdHunter.Rules.Parser.Written
import FastAdHunter.Rules.Verdict

/-!
# The restrictions of a compiled rule

A rule of a compiled ruleset against the line it was read from: which occasions
its record accepts, by the pattern and the options in force of the line, and
which of the written options hold there.
-/

namespace FastAdHunter.Rules

open Lib Net Adblock List

section UrlRecords

structure Url.UrlIndex.Names (m : Url.UrlIndex) (i : Nat) (rule : UrlRule) : Prop where
  record : ∃ r, m.records[i]? = some r ∧ Url.Decodes m.patterns m.domains r rule
  methods : m.methods.lookup i = rule.methods
  client : (m.clients.lookup i).map ClientScope.raw = rule.client

/-- The tests of a URL rule that need no look at the URL. -/
structure UrlRule.Admits (rule : UrlRule) (request : HttpRequest) (ctx : ClientContext) :
    Prop where
  party : rule.party = .any ∨ Url.isThirdParty request = decide (rule.party = .third)
  types : rule.resourceTypes = 0 ∨
    rule.resourceTypes &&& bitForRequest request.resourceType ≠ 0 ∨
    (bitForRequest request.resourceType = 0 ∧ rule.action = .allow)
  methods : ∀ raw, rule.methods = some raw → Url.methodsApply raw request.method = true
  domains : rule.domains.getD [] = [] ∨
    Url.domainsApply (rule.domains.getD []) request.documentHost = true
  client : ∀ raw, rule.client = some raw →
    ∃ scope, ClientScope.parse raw = some scope ∧ scope.admits ctx.ip ctx.name = true

/-- The pattern test of a URL rule with a fresh allowance. -/
def UrlRule.Accepts (rule : UrlRule) (url : Bytes) : Prop :=
  (matchPattern rule.anchor rule.pattern url (hostSpan url).1 (hostSpan url).2 rule.endAnchored
    rule.matchCase (Budget.new.openRule url.length)).1 = true

/-- When a URL rule applies to a request: a list that supplied it is visible, its
options admit the request and the client, and its pattern accepts the URL. -/
structure UrlApplies (added : List Url.UrlEntry) (request : HttpRequest) (ctx : ClientContext)
    (rule : UrlRule) : Prop where
  visible : ∃ x ∈ added, Url.sameUrlRule rule x.1.1 = true ∧ x.2 &&& ctx.policyBit ≠ 0
  admits : rule.Admits request ctx
  pattern : rule.Accepts request.url

variable {m : Matcher} {policies : UInt16} {lists : List SourceList}
variable {request : HttpRequest} {ctx : ClientContext}

lemma sameUrlRule_iff (r s : UrlRule) :
    Url.sameUrlRule r s = true ↔ r.pattern = s.pattern ∧ r.action = s.action ∧ r.anchor = s.anchor ∧
        r.endAnchored = s.endAnchored ∧ r.matchCase = s.matchCase ∧ r.party = s.party ∧
        r.resourceTypes = s.resourceTypes ∧ r.domains.getD [] = s.domains.getD [] ∧
        r.methods = s.methods ∧ r.client = s.client := by
  simp [Url.sameUrlRule, and_assoc]

lemma UrlApplies.congr (h : UrlApplies added request ctx r) (hsame : Url.sameUrlRule r s = true) :
    UrlApplies added request ctx s := by
  have hsym : Url.sameUrlRule s r = true := Url.isSame_sameUrlKey.symm (r, 0) (s, 0) hsame
  obtain ⟨x, hx, hrx, hbit⟩ := h.visible
  obtain ⟨h1, h2, h3, h4, h5, h6, h7, h8, h9, h10⟩ := (sameUrlRule_iff r s).mp hsame
  refine ⟨⟨x, hx, ?_, hbit⟩, ?_, ?_⟩
  · exact Url.isSame_sameUrlKey.trans (s, 0) (r, 0) x.1 hsym hrx
  · have := h.admits
    constructor
    · rw [← h6]; exact this.party
    · rw [← h7, ← h2]; exact this.types
    · rw [← h9]; exact this.methods
    · rw [← h8]; exact this.domains
    · rw [← h10]; exact this.client
  · have := h.pattern
    rw [UrlRule.Accepts, h1, h3, h4, h5] at this
    exact this

variable {e : Url.UrlEntry}

lemma mergedUrls_visible
    (he : e ∈ mergedUrls added) (hstorable : Url.urlStorable e.1.1 = true) (ctx : ClientContext) :
    e.2 &&& ctx.policyBit ≠ 0 ↔
      ∃ x ∈ added, Url.sameUrlRule e.1.1 x.1.1 = true ∧ x.2 &&& ctx.policyBit ≠ 0 := by
  rw [mergedUrls_eq] at he
  have hmerge := merge_payload_iff Url.isSame_sameUrlKey (p := fun m => m &&& ctx.policyBit ≠ 0)
    (fun a b => or_and_ne_zero_iff a b _) _ e he
  rw [hmerge]
  constructor
  · rintro ⟨x, hx, hsame, hbit⟩
    exact ⟨x, (mem_filter.mp hx).1, hsame, hbit⟩
  · rintro ⟨x, hx, hsame, hbit⟩
    refine ⟨x, mem_filter.mpr ⟨hx, ?_⟩, hsame, hbit⟩
    obtain ⟨h1, -, -, -, -, -, -, h8, -, h10⟩ := (sameUrlRule_iff _ _).mp hsame
    simp only [Url.urlStorable, Url.UrlIndexBuilder.compileScope] at hstorable ⊢
    rwa [h1, h8, h10] at hstorable

/-- A merged URL rule of a compiled ruleset and its record. -/
structure Stored (m : Matcher) (i : Nat) (e : Url.UrlEntry) (r : Url.Record) : Prop where
  record : m.url.records[i]? = some r
  decodes : Url.Decodes m.url.patterns m.url.domains r e.1.1
  methods : m.url.methods.lookup i = e.1.1.methods
  clients : m.url.clients.lookup i = Url.scopeOf e.1.1
  storable : Url.urlStorable e.1.1 = true

lemma Ruleset.stored (h : Ruleset m policies lists)
    (he : (mergedUrls (urlEntriesOf lists 0))[i]? = some e) : ∃ r, Stored m i e r := by
  obtain ⟨b, slots, hstores, hurl, -⟩ := h.url
  have hi : ((mergedUrls (urlEntriesOf lists 0)).map fun e => e.1.1)[i]? = some e.1.1 := by
    rw [getElem?_map, he]
    rfl
  obtain ⟨r, hr, hdec⟩ := Url.Rep.record hstores i e.1.1 hi
  refine ⟨r, ?_, ?_, ?_, ?_, ?_⟩
  · rw [hurl]; exact hr
  · rw [hurl]; exact hdec
  · rw [hurl]
    exact (Url.Rep.methods hstores i).trans (by rw [hi]; rfl)
  · rw [hurl]
    exact (Url.Rep.clients hstores i).trans (by rw [hi]; rfl)
  · exact Url.Rep.stored hstores e.1.1 (mem_of_getElem? hi)

lemma Stored.names (h : Stored m i e r) : m.url.Names i e.1.1 := by
  refine ⟨⟨r, h.record, h.decodes⟩, h.methods, ?_⟩
  have hst := h.storable
  simp only [Url.urlStorable, Bool.and_eq_true] at hst
  obtain ⟨scope, hscope⟩ := Option.isSome_iff_exists.mp hst.2
  rw [h.clients]
  exact (Url.compileScope_eq hscope).2

lemma Stored.same (h : Stored m i e r) (hnames : m.url.Names i rule) : Url.sameUrlRule e.1.1 rule = true := by
  obtain ⟨⟨r', hr', hdec⟩, hmethods, hclient⟩ := hnames
  obtain ⟨⟨r'', hr'', hdec'⟩, hmethods', hclient'⟩ := h.names
  have hr := Option.some.inj (hr'.symm.trans hr'')
  subst hr
  have hflags := hdec'.flags.symm.trans hdec.flags
  obtain ⟨h1, h2, h3, -, -, h6, h7⟩ := (Url.flagsOf_eq_iff _ _).mp hflags
  rw [sameUrlRule_iff]
  exact ⟨hdec'.pattern.symm.trans hdec.pattern, h1, h6, h2, h3, h7,
    hdec'.types.symm.trans hdec.types, hdec'.domains.symm.trans hdec.domains,
    hmethods'.symm.trans hmethods, hclient'.symm.trans hclient⟩

lemma Ruleset.urlVisible (h : Ruleset m policies lists) (hctx : policies &&& ctx.policyBit ≠ 0)
    (he : (mergedUrls (urlEntriesOf lists 0))[i]? = some e) :
    (m.url.policyMask.isEmpty || m.url.policyMask.getD i 0 &&& ctx.policyBit != 0) =
      (e.2 &&& ctx.policyBit != 0) := by
  obtain ⟨b, slots, hstores, hurl, -⟩ := h.url
  have hmasks : m.url.policyMask =
      if b.policyMask.all (· == policies) then [] else b.policyMask := by rw [hurl]; rfl
  rw [hmasks, Url.Rep.policy hstores]
  have hmem := mem_of_getElem? he
  split
  · next hall =>
    have hmask : e.2 = policies := by
      simpa using all_eq_true.mp hall e.2 (mem_map_of_mem hmem)
    simpa [hmask] using hctx
  · have hne : ((mergedUrls (urlEntriesOf lists 0)).map Prod.snd).isEmpty = false := by
      rw [isEmpty_eq_false_iff]
      exact ne_nil_of_mem (mem_map_of_mem hmem)
    simp [hne, he]

lemma Ruleset.urlAdmits_iff (h : Ruleset m policies lists) (hctx : policies &&& ctx.policyBit ≠ 0)
    (he : (mergedUrls (urlEntriesOf lists 0))[i]? = some e) (hs : Stored m i e r)
    (request : HttpRequest) :
    m.url.admits i r (.new request ctx) = true ↔
      e.2 &&& ctx.policyBit ≠ 0 ∧ e.1.1.Admits request ctx := by
  obtain ⟨hallow, -, -, hmethods, hclient, -, hparty⟩ :=
    Url.record_flagsOf e.1.1 r hs.decodes.flags
  have hdomains : m.url.domainsOf r = e.1.1.domains.getD [] := hs.decodes.domains
  simp only [Url.UrlIndex.admits, Url.Probe.new, Bool.and_eq_true]
  rw [h.urlVisible hctx he, hallow, hmethods, hclient, hparty, hdomains, hs.clients, hs.methods,
    hs.decodes.types, hs.decodes.domLen]
  have hscope : (!e.1.1.client.isSome ||
      (Url.scopeOf e.1.1).any (·.admits ctx.ip ctx.name)) = true ↔
      ∀ raw, e.1.1.client = some raw →
        ∃ scope, ClientScope.parse raw = some scope ∧ scope.admits ctx.ip ctx.name = true := by
    rw [Url.scopeOf]
    cases e.1.1.client <;> simp [Option.any_eq_true]
  have htyped : (e.1.1.resourceTypes == 0 ||
      e.1.1.resourceTypes &&& bitForRequest request.resourceType != 0 ||
      (bitForRequest request.resourceType == 0 && decide (e.1.1.action = .allow))) = true ↔
      e.1.1.resourceTypes = 0 ∨
        e.1.1.resourceTypes &&& bitForRequest request.resourceType ≠ 0 ∨
        (bitForRequest request.resourceType = 0 ∧ e.1.1.action = .allow) := by
    simp [or_assoc]
  have hmethod : (!e.1.1.methods.isSome ||
      Url.methodsApply (e.1.1.methods.getD []) request.method) = true ↔
      ∀ raw, e.1.1.methods = some raw → Url.methodsApply raw request.method = true := by
    cases e.1.1.methods <;> simp
  have hdocument : ((e.1.1.domains.getD []).length == 0 ||
      Url.domainsApply (e.1.1.domains.getD []) request.documentHost) = true ↔
      e.1.1.domains.getD [] = [] ∨
        Url.domainsApply (e.1.1.domains.getD []) request.documentHost = true := by
    simp
  rw [bne_iff_ne, hscope, htyped, hmethod, hdocument]
  constructor
  · rintro ⟨⟨⟨⟨⟨hv, hc⟩, ht⟩, hp⟩, hm⟩, hd⟩
    refine ⟨hv, ?_, ht, hm, hd, hc⟩
    revert hp
    cases e.1.1.party <;> simp
  · rintro ⟨hv, hp, ht, hm, hd, hc⟩
    refine ⟨⟨⟨⟨⟨hv, hc⟩, ht⟩, ?_⟩, hm⟩, hd⟩
    revert hp
    cases e.1.1.party <;> simp

lemma Ruleset.check_stored (h : Ruleset m policies lists) (hctx : policies &&& ctx.policyBit ≠ 0)
    (he : (mergedUrls (urlEntriesOf lists 0))[i]? = some e) (hs : Stored m i e r) :
    (m.url.check i (.new request ctx) .new).1 = some (decide (e.1.1.action = .allow)) ↔
      UrlApplies (urlEntriesOf lists 0) request ctx e.1.1 := by
  obtain ⟨hallow, hend, hcase, -, -, hanchor, -⟩ := Url.record_flagsOf e.1.1 r hs.decodes.flags
  have hpattern : m.url.patternOf r = e.1.1.pattern := hs.decodes.pattern
  have hmatch : (m.url.checkPattern r (.new request ctx) .new).1 = true ↔
      e.1.1.Accepts request.url := by
    rw [Url.UrlIndex.checkPattern, hpattern, hanchor, hend, hcase]
    rfl
  have hadmits := h.urlAdmits_iff hctx he hs request
  have hvisible := mergedUrls_visible (mem_of_getElem? he) hs.storable ctx
  rw [Url.UrlIndex.check, hs.record]
  dsimp only
  cases hadm : m.url.admits i r (.new request ctx) with
  | false =>
    refine iff_of_false (by simp) fun happ => ?_
    have := hadmits.mpr ⟨hvisible.mpr happ.visible, happ.admits⟩
    rw [hadm] at this
    cases this
  | true =>
    obtain ⟨hmask, hrule⟩ := hadmits.mp hadm
    cases hm : (m.url.checkPattern r (.new request ctx) .new).1 with
    | false =>
      refine iff_of_false (by simp) fun happ => ?_
      have := hmatch.mpr happ.pattern
      rw [hm] at this
      cases this
    | true =>
      refine iff_of_true (by simp [hallow]) ?_
      exact ⟨hvisible.mp hmask, hrule, hmatch.mp hm⟩

/-- **What the record of a URL rule accepts.** -/
theorem Ruleset.check_iff (h : Ruleset m policies lists)
    (hctx : policies &&& ctx.policyBit ≠ 0) (hx : x ∈ urlEntriesOf lists 0)
    (hstorable : Url.urlStorable x.1.1 = true) (request : HttpRequest) :
    (∃ i, m.url.Names i x.1.1 ∧ (m.url.check i (.new request ctx) .new).1 =
        some (decide (x.1.1.action = .allow))) ↔
      UrlApplies (urlEntriesOf lists 0) request ctx x.1.1 := by
  constructor
  · rintro ⟨i, hnames, hcheck⟩
    obtain ⟨r, hr, -⟩ := hnames.record
    have hlt : i < (mergedUrls (urlEntriesOf lists 0)).length := by
      obtain ⟨b, slots, hstores, hurl, -⟩ := h.url
      have hlen := Url.Rep.recordsLength hstores
      rw [length_map] at hlen
      rw [← hlen]
      rw [hurl] at hr
      exact (List.getElem?_eq_some_iff.mp hr).1
    have he := getElem?_eq_getElem hlt
    obtain ⟨r', hs⟩ := h.stored he
    have hsame := hs.same hnames
    have haction := ((sameUrlRule_iff _ _).mp hsame).2.1
    rw [← haction] at hcheck
    exact ((h.check_stored hctx he hs).mp hcheck).congr hsame
  · intro happ
    have hkept : x.1 ∈ ((urlEntriesOf lists 0).filter fun x => Url.urlStorable x.1.1).map Prod.fst :=
      mem_map_of_mem (mem_filter.mpr ⟨hx, hstorable⟩)
    obtain ⟨key, hkey, hsame⟩ := exists_mem_distinct Url.isSame_sameUrlKey hkept
    rw [← keys_mergedUrls] at hkey
    obtain ⟨e, hmem, rfl⟩ := mem_map.mp hkey
    obtain ⟨i, he⟩ := getElem?_of_mem hmem
    obtain ⟨r, hs⟩ := h.stored he
    have hsym := Url.isSame_sameUrlKey.symm _ _ hsame
    have haction := ((sameUrlRule_iff _ _).mp hsame).2.1
    have hcheck := (h.check_stored hctx he hs).mpr (happ.congr hsym)
    rw [haction] at hcheck
    refine ⟨i, ?_, hcheck⟩
    obtain ⟨⟨r', hr', hdec⟩, hmethods, hclient⟩ := hs.names
    obtain ⟨h1, h2, h3, h4, h5, h6, h7, h8, h9, h10⟩ := (sameUrlRule_iff _ _).mp hsame
    have hflags : Url.flagsOf e.1.1 = Url.flagsOf x.1.1 :=
      (Url.flagsOf_eq_iff _ _).mpr ⟨h2, h4, h5, by rw [h9], by rw [h10], h3, h6⟩
    refine ⟨⟨r', hr', ?_⟩, hmethods.trans h9, hclient.trans h10⟩
    exact ⟨hdec.pattern.trans h1, hdec.domains.trans h8, by rw [hdec.patLen, h1],
      by rw [hdec.domLen, h8], hdec.types.trans h7, hdec.flags.trans hflags⟩

end UrlRecords

section DomainRecords

variable {m : Matcher} {policies : UInt16} {lists : List SourceList}
variable {name : Bytes} {qtype : Option QueryType} {ctx : ClientContext}

lemma Applies.congr (h : Applies added name qtype ctx r) (hsame : sameRule r s = true) :
    Applies added name qtype ctx s := by
  obtain ⟨x, hx, hrx, hbit⟩ := h.visible
  obtain ⟨h1, -, h3, h4, h5, h6⟩ := (sameRule_iff r s).mp hsame
  constructor
  · rw [← h1, ← h3]; exact h.covers
  · rw [← h4]; exact h.dnstype
  · rw [← h5]; exact h.rewrite
  · exact ⟨x, hx, isSame_sameRule.trans _ _ _ (isSame_sameRule.symm _ _ hsame) hrx, hbit⟩
  · rw [← h6]; exact h.client

lemma keys_merged (added : List Entry) :
    (merged added).map Prod.fst = distinct sameKey ((kept added).map Prod.fst) := by
  rw [merged_eq]
  exact keys_merge isSame_sameKey _

lemma exists_kept_of_mem_merged (h : e ∈ merged added) :
    ∃ x ∈ kept added, x.1 = e.1 := by
  have hkey : e.1 ∈ (merged added).map Prod.fst := mem_map_of_mem h
  rw [keys_merged] at hkey
  exact mem_map.mp (mem_of_mem_distinct hkey)

lemma Compiled.takesPart_iff_applies
    (h : Compiled d policies (merged added)) (hctx : policies &&& ctx.policyBit ≠ 0)
    (hfits : Fits added) (he : (merged added)[i]? = some e) (action : RuleAction) :
    d.TakesPart name (qtype.map qtypeBit) ctx action i ↔
      Applies added name qtype ctx e.1.1 ∧ e.1.1.action = action := by
  have hmem := mem_of_getElem? he
  obtain ⟨x, hx, hxe⟩ := exists_kept_of_mem_merged hmem
  rw [merged_eq] at hmem
  rw [d.takesPart_iff, ← hxe, applies_iff hfits (mem_filter.mp hx).1 action]
  refine exists_congr fun s => and_congr_right fun _ => ?_
  rw [h.hit_eq hctx he, matchesAt_eq_keyAt hmem, hxe]
  exact Iff.rfl

lemma DomainIndex.Names.same {d : DomainIndex}
    (ha : d.Names i a) (hb : d.Names i b) : sameRule a.1 b.1 = true := by
  obtain ⟨r, hr, hdom, hallow, hsub, -⟩ := ha.record
  obtain ⟨r', hr', hdom', hallow', hsub', -⟩ := hb.record
  have heq := Option.some.inj (hr.symm.trans hr')
  subst heq
  have haction : a.1.action = b.1.action := by
    have := hallow.symm.trans hallow'
    revert this
    cases a.1.action <;> cases b.1.action <;> simp
  rw [sameRule_iff]
  exact ⟨by rw [← hdom, ← hdom'], haction, hsub.symm.trans hsub',
    ha.dnsTypes.symm.trans hb.dnsTypes, ha.rewrite.symm.trans hb.rewrite,
    ha.client.symm.trans hb.client⟩

/-- **What the record of a domain rule accepts.** -/
theorem Ruleset.takesPart_iff (h : Ruleset m policies lists)
    (hctx : policies &&& ctx.policyBit ≠ 0) {x : Entry} (hx : x ∈ entriesOf lists 0)
    (name : Bytes) (qtype : Option QueryType) :
    (∃ i key, m.domain.Names i key ∧ sameRule key.1 x.1.1 = true ∧
        m.domain.TakesPart name (qtype.map qtypeBit) ctx x.1.1.action i) ↔
      Applies (entriesOf lists 0) name qtype ctx x.1.1 := by
  have hfits := fits_entriesOf lists 0
  have hst : ∀ {e : Entry}, e ∈ merged (entriesOf lists 0) → storable e.1.1 = true := by
    intro e hmem
    obtain ⟨y, hy, hye⟩ := exists_kept_of_mem_merged hmem
    rw [← hye]
    exact (mem_filter.mp hy).2
  constructor
  · rintro ⟨i, key, hnames, hsame, htakes⟩
    obtain ⟨r, hr, -⟩ := hnames.record
    have hlt : i < (merged (entriesOf lists 0)).length := by
      rw [← h.domain.recordsLength]
      exact (List.getElem?_eq_some_iff.mp hr).1
    have he := getElem?_eq_getElem hlt
    have hother := h.domain.names he (hst (getElem_mem hlt))
    have hchain := isSame_sameRule.trans _ _ _ (hother.same hnames) hsame
    exact ((h.domain.takesPart_iff_applies hctx hfits he _).mp htakes).1.congr hchain
  · intro happ
    have hadm := (admits_iff x.1.1 qtype ctx).mpr ⟨happ.dnstype, happ.rewrite, happ.client⟩
    have hkept : x.1 ∈ (kept (entriesOf lists 0)).map Prod.fst :=
      mem_map_of_mem (mem_filter.mpr ⟨hx, storable_of_admits (hfits x hx) hadm⟩)
    obtain ⟨key, hkey, hsame⟩ := exists_mem_distinct isSame_sameKey hkept
    rw [← keys_merged] at hkey
    obtain ⟨e, hmem, rfl⟩ := mem_map.mp hkey
    obtain ⟨i, he⟩ := getElem?_of_mem hmem
    have haction := ((sameRule_iff _ _).mp hsame).2.1
    refine ⟨i, e.1, h.domain.names he (hst hmem), hsame, ?_⟩
    refine (h.domain.takesPart_iff_applies hctx hfits he _).mpr ⟨?_, haction⟩
    exact happ.congr (isSame_sameRule.symm _ _ hsame)

end DomainRecords

lemma Adblock.parseLine_active
    (h : Adblock.parseLine line = .rules [kind]) (hactive : ∀ reason, kind ≠ .inactive reason) :
    ∃ raw options, (written line).tokens = tokensOf raw ∧ parseOptions raw = some options ∧
      classify (written line).pattern (written line).exception options = .rules [kind] := by
  simp only [Adblock.parseLine] at h
  split at h
  · cases h
  · split at h
    · cases h
    · split at h
      · split at h
        · cases h
        · cases h
          exact absurd rfl (hactive _)
      · split at h
        · cases h
        · rw [parseRule] at h
          dsimp only at h
          split at h
          · cases h
          · next options hoptions => exact ⟨_, options, rfl, hoptions, h⟩

lemma Adblock.domainRule_eq (pattern : Bytes) (exception : Bool) (options : Options) :
    domainRule pattern exception options =
      match domainRule pattern exception .default with
      | .rule base =>
        if options.httpScoped then .notADomainRule
        else
          .rule
            { base with
              opts := DomainOpts.boxed ⟨options.dnsTypes, options.dnsRewrite, options.client⟩ }
      | verdict => verdict := by
  simp only [domainRule]
  cases stripPrefix (lit "||") pattern with
  | none => rfl
  | some afterAnchor =>
    dsimp only
    generalize (findByte (fun b => b == ch '^' || b == ch '/') afterAnchor).getD
      afterAnchor.length = stop
    by_cases hempty : (afterAnchor.take stop).isEmpty = true
    · rw [if_pos hempty, if_pos hempty]
    · rw [if_neg hempty, if_neg hempty]
      cases normalizeDomain (afterAnchor.take stop) with
      | none => rfl
      | some domain =>
        dsimp only
        split
        · rfl
        · rfl

lemma Adblock.classify_active (h : classify pattern exception options = .rules [.active rule]) :
    options.unsupported = false ∧ domainRule pattern exception options = .rule rule := by
  rw [classify] at h
  split at h
  · cases h
  · next hsup =>
    refine ⟨Bool.eq_false_iff.mpr hsup, ?_⟩
    split at h
    · next hrule =>
      cases h
      exact hrule
    · cases h
    · split at h
      · cases h
      · simp only [LineOutcome.rules.injEq, List.cons.injEq, and_true] at h
        simp only [urlRule, urlRuleOf] at h
        split_ifs at h

lemma Adblock.classify_url (h : classify pattern exception options = .rules [.url rule]) :
    options.unsupported = false ∧ domainRule pattern exception options = .notADomainRule ∧
      urlRuleOf (splitAnchor pattern).1 (splitEndAnchor (splitAnchor pattern).2).1
        (splitEndAnchor (splitAnchor pattern).2).2 exception options = .url rule := by
  rw [classify] at h
  split at h
  · cases h
  · next hsup =>
    refine ⟨Bool.eq_false_iff.mpr hsup, ?_⟩
    split at h
    · cases h
    · cases h
    · next hrule =>
      refine ⟨hrule, ?_⟩
      split at h
      · cases h
      · simp only [LineOutcome.rules.injEq, List.cons.injEq, and_true] at h
        rw [urlRule] at h
        split at h
        · cases h
        · exact h

lemma DomainOpts.boxed_bind (opts : DomainOpts) (f : DomainOpts → Option α)
    (h : f ⟨none, none, none⟩ = none) : opts.boxed.bind f = f opts := by
  rw [boxed]
  split
  · next hnone =>
    simp only [Bool.and_eq_true, Option.isNone_iff_eq_none] at hnone
    obtain ⟨⟨h1, h2⟩, h3⟩ := hnone
    obtain ⟨d, r, c⟩ := opts
    cases h1
    cases h2
    cases h3
    exact h.symm
  · rfl

lemma Adblock.OptionState.finish_eq (st : OptionState) :
    st.finish = { st.options with
      resourceTypes := st.finish.resourceTypes
      unsupported := st.finish.unsupported } := by
  rw [finish]
  split <;> rfl

/-- A domain rule as the line it was read from gives it. -/
structure ReadsHost (w : WrittenRule) (rule : DomainRule) : Prop where
  hostOnly : w.hostOnly = true
  usable : ∀ token ∈ w.tokens, token.usable = true
  base : ∃ base, domainRule w.pattern w.exception .default = .rule base ∧
    rule.domain = base.domain ∧ rule.includeSubdomains = base.includeSubdomains
  dnsTypes : rule.dnsTypes = (lastOf .dnstype w.tokens).bind (·.value)
  dnsRewrite : rule.dnsRewrite = (lastOf .dnsrewrite w.tokens).bind (·.value)
  client : rule.client = (lastOf .client w.tokens).bind (·.value)

lemma readsHost_of_parseLine
    (hline : Adblock.parseLine line = .rules [.active rule]) : ReadsHost (written line) rule := by
  obtain ⟨raw, options, htokens, hoptions, hclass⟩ :=
    Adblock.parseLine_active hline (fun _ h => by cases h)
  obtain ⟨hsup, hrule⟩ := Adblock.classify_active hclass
  obtain ⟨husable, st, htracks, rfl⟩ := parseOptions_inForce hoptions hsup
  rw [← htokens] at htracks husable
  rw [Adblock.OptionState.finish_eq, Adblock.domainRule_eq] at hrule
  cases hbase : domainRule (written line).pattern (written line).exception .default with
  | malformed | notADomainRule => rw [hbase] at hrule; cases hrule
  | rule base =>
    rw [hbase] at hrule
    dsimp only at hrule
    split at hrule
    · cases hrule
    · next hscoped =>
      have heq := (DomainVerdict.rule.inj hrule).symm
      rw [htracks.httpScoped] at hscoped
      refine ⟨?_, husable, ⟨base, hbase, by rw [heq], by rw [heq]⟩, ?_, ?_, ?_⟩
      · rw [WrittenRule.hostOnly, hbase, Bool.eq_false_iff.mpr hscoped]
        rfl
      · rw [heq]
        exact (DomainOpts.boxed_bind _ (·.dnsTypes) rfl).trans htracks.dnsTypes
      · rw [heq]
        exact (DomainOpts.boxed_bind _ (·.dnsRewrite) rfl).trans htracks.dnsRewrite
      · rw [heq]
        exact (DomainOpts.boxed_bind _ (·.client) rfl).trans htracks.client

/-- A URL rule as the line it was read from gives it. -/
structure ReadsUrl (w : WrittenRule) (rule : UrlRule) : Prop where
  hostOnly : w.hostOnly = false
  usable : ∀ token ∈ w.tokens, token.usable = true
  storable : Url.urlStorable rule = true
  accepts : ∀ url, rule.Accepts url ↔ PatternAccepts w.pattern w.matchCase url
  types : ∀ kind, (rule.resourceTypes = 0 ∨ rule.resourceTypes &&& bitForRequest kind ≠ 0 ∨
    (bitForRequest kind = 0 ∧ rule.action = .allow)) ↔ ResourceHolds w.exception w.tokens kind
  party : rule.party = (lastOf .party w.tokens).elim .any (·.party)
  domains : rule.domains = (lastOf .document w.tokens).bind (·.value.map lower)
  methods : rule.methods = (lastOf .method w.tokens).bind (·.value.map upper)
  client : rule.client = (lastOf .client w.tokens).bind (·.value)

lemma parses_of_usable (h : ∀ token ∈ tokens, token.usable = true)
    (hraw : (lastOf .client tokens).bind (·.value) = some raw) :
    (ClientScope.parse raw).isSome = true := by
  obtain ⟨token, hlast, hvalue⟩ := Option.bind_eq_some_iff.mp hraw
  obtain ⟨hmem, hslot⟩ := mem_of_lastOf hlast
  have hkind : token.kind = .client := by
    revert hslot
    cases token.kind <;> simp [OptionKind.slot]
  have husable := h token hmem
  simp only [OptionToken.usable, hkind, Option.any_eq_true] at husable
  obtain ⟨value, hvalue', hparse⟩ := husable
  cases hvalue.symm.trans hvalue'
  exact hparse

lemma readsUrl_of_parseLine
    (hline : Adblock.parseLine line = .rules [.url rule]) : ReadsUrl (written line) rule := by
  obtain ⟨raw, options, htokens, hoptions, hclass⟩ :=
    Adblock.parseLine_active hline (fun _ h => by cases h)
  obtain ⟨hsup, hdomain, hrule⟩ := Adblock.classify_url hclass
  obtain ⟨husable, st, htracks, rfl⟩ := parseOptions_inForce hoptions hsup
  rw [← htokens] at htracks husable
  have htypes := htracks.types_iff hsup (written line).exception
  have hhost : (written line).hostOnly = false := by
    rw [Adblock.OptionState.finish_eq, Adblock.domainRule_eq] at hdomain
    rw [WrittenRule.hostOnly, ← htracks.httpScoped]
    cases hbase : domainRule (written line).pattern (written line).exception .default with
    | malformed => rfl
    | notADomainRule => rfl
    | rule base =>
      rw [hbase] at hdomain
      cases hscoped : st.options.httpScoped with
      | true => rfl
      | false => simp [hscoped] at hdomain
  rw [urlRuleOf] at hrule
  split at hrule
  · cases hrule
  · next hbody =>
    split at hrule
    · cases hrule
    · next hlong =>
      have heq := (RuleKind.url.inj hrule).symm
      have hclient : rule.client = (lastOf .client (written line).tokens).bind (·.value) := by
        rw [heq, Adblock.OptionState.finish_eq]
        exact htracks.client
      have hcase : st.finish.matchCase = (written line).matchCase := by
        rw [Adblock.OptionState.finish_eq]
        exact htracks.matchCase
      have hscope : (Url.UrlIndexBuilder.compileScope rule).isSome = true := by
        rw [Url.UrlIndexBuilder.compileScope]
        split
        · rfl
        · next raw hraw => simpa using parses_of_usable husable (hclient.symm.trans hraw)
      have hlength : rule.pattern.length =
          (splitEndAnchor (splitAnchor (written line).pattern).2).1.length := by
        rw [heq]
        dsimp only
        split
        · rfl
        · exact length_lower _
      have hdomains : rule.domains = st.finish.domains := by rw [heq]
      rw [Bool.or_eq_true, not_or] at hlong
      refine ⟨hhost, husable, ?_, ?_, ?_, ?_, ?_, ?_, hclient⟩
      · have hpos : 0 < (splitEndAnchor (splitAnchor (written line).pattern).2).1.length := by
          rw [length_pos_iff]
          exact fun hnil => hbody (by rw [hnil]; rfl)
        have hshort : (st.finish.domains.getD []).length ≤ 65535 := by
          cases hdom : st.finish.domains with
          | none => simp
          | some domains => simpa [hdom] using hlong.2
        simp only [decide_eq_true_eq, not_lt] at hlong
        simp [Url.urlStorable, hscope, hlength, hdomains, hpos, hshort, hlong.1]
      · intro url
        rw [heq, UrlRule.Accepts, PatternAccepts, hcase]
      · intro kind
        rw [heq]
        exact htypes kind
      · rw [heq, Adblock.OptionState.finish_eq]
        exact htracks.party
      · rw [heq, Adblock.OptionState.finish_eq]
        exact htracks.domains
      · rw [heq, Adblock.OptionState.finish_eq]
        exact htracks.methods

section Lines

/-- A record that holds the rule of a line accepts an occasion. -/
def Matcher.Accepts (m : Matcher) (kind : RuleKind) (ctx : ClientContext)
    (occasion : Occasion) : Prop :=
  match kind, occasion with
  | .active rule, occasion =>
    ∃ i key, m.domain.Names i key ∧ sameRule key.1 rule = true ∧
      m.domain.TakesPart occasion.name (occasion.qtype.map qtypeBit) ctx rule.action i
  | .url rule, .request r =>
    ∃ i, m.url.Names i rule ∧
      (m.url.check i (.new r ctx) .new).1 = some (decide (rule.action = .allow))
  | .url _, .question _ _ => False
  | .inactive _, _ => False

/-- The client's policy sees a list that supplied the rule. -/
def Seen (lists : List SourceList) (ctx : ClientContext) : RuleKind → Prop
  | .active rule =>
    ∃ x ∈ entriesOf lists 0, sameRule rule x.1.1 = true ∧ x.2 &&& ctx.policyBit ≠ 0
  | .url rule =>
    ∃ x ∈ urlEntriesOf lists 0, Url.sameUrlRule rule x.1.1 = true ∧ x.2 &&& ctx.policyBit ≠ 0
  | .inactive _ => False

variable {m : Matcher} {policies : UInt16} {lists : List SourceList}
variable {line : Bytes} {ctx : ClientContext}

lemma ReadsHost.applies_iff (h : ReadsHost w rule) (name : Bytes) (qtype : Option QueryType) :
    Applies (entriesOf lists 0) name qtype ctx rule ↔
      Seen lists ctx (.active rule) ∧ w.MeetsHost name qtype ctx := by
  obtain ⟨base, hbase, hdomain, hsub⟩ := h.base
  constructor
  · rintro ⟨hcovers, hd, hw, hv, hc⟩
    rw [hdomain, hsub] at hcovers
    refine ⟨hv, ⟨base, hbase, hcovers⟩, ?_, ?_, ?_⟩
    · intro token value hlast hvalue
      refine hd value ?_
      rw [h.dnsTypes, hlast]
      exact hvalue
    · intro token hlast hvalue
      refine hw ?_
      rw [h.dnsRewrite, hlast]
      exact hvalue
    · intro token value hlast hvalue
      refine hc value ?_
      rw [h.client, hlast]
      exact hvalue
  · rintro ⟨hv, ⟨base', hbase', hcovers⟩, hd, hw, hc⟩
    cases hbase.symm.trans hbase'
    refine ⟨by rwa [hdomain, hsub], ?_, ?_, hv, ?_⟩
    · intro value hvalue
      obtain ⟨token, hlast, hval⟩ := Option.bind_eq_some_iff.mp (h.dnsTypes.symm.trans hvalue)
      exact hd token value hlast hval
    · intro hsome
      obtain ⟨value, hvalue⟩ := Option.isSome_iff_exists.mp hsome
      obtain ⟨token, hlast, hval⟩ := Option.bind_eq_some_iff.mp (h.dnsRewrite.symm.trans hvalue)
      exact hw token hlast (by rw [hval]; rfl)
    · intro value hvalue
      obtain ⟨token, hlast, hval⟩ := Option.bind_eq_some_iff.mp (h.client.symm.trans hvalue)
      exact hc token value hlast hval

lemma forall_value_iff (o : Option OptionToken) (p : Bytes → Prop) :
    (∀ token value, o = some token → token.value = some value → p value) ↔
      ∀ value, o.bind (·.value) = some value → p value := by
  constructor
  · intro h value hvalue
    obtain ⟨token, ho, hval⟩ := Option.bind_eq_some_iff.mp hvalue
    exact h token value ho hval
  · rintro h token value rfl hval
    exact h value hval

lemma ReadsUrl.applies_iff (h : ReadsUrl w rule) (request : HttpRequest) :
    UrlApplies (urlEntriesOf lists 0) request ctx rule ↔
      Seen lists ctx (.url rule) ∧ w.MeetsRequest request ctx := by
  have hdomains : (rule.domains.getD [] = [] ∨
      Url.domainsApply (rule.domains.getD []) request.documentHost = true) ↔
      ∀ token value, lastOf .document w.tokens = some token → token.value = some value →
        Url.domainsApply (lower value) request.documentHost = true := by
    rw [h.domains, forall_value_iff _ fun value =>
      Url.domainsApply (lower value) request.documentHost = true]
    cases hlast : lastOf .document w.tokens with
    | none => simp
    | some token =>
      obtain ⟨hmem, hslot⟩ := mem_of_lastOf hlast
      have hkind : token.kind = .document := by
        revert hslot
        cases token.kind <;> simp [OptionKind.slot]
      have hu := h.usable token hmem
      simp only [OptionToken.usable, hkind, Option.any_eq_true, Bool.not_eq_true',
        isEmpty_eq_false_iff] at hu
      obtain ⟨value, hvalue, hne⟩ := hu
      have hlower : lower value ≠ [] := by
        rw [← length_pos_iff, length_lower]
        exact length_pos_iff.mpr hne
      simp [hvalue, hlower]
  have hmethods : (∀ raw, rule.methods = some raw → Url.methodsApply raw request.method = true) ↔
      ∀ token value, lastOf .method w.tokens = some token → token.value = some value →
        Url.methodsApply (upper value) request.method = true := by
    rw [h.methods, forall_value_iff _ fun value =>
      Url.methodsApply (upper value) request.method = true]
    cases lastOf .method w.tokens with
    | none => simp
    | some token => simp
  have hclient : (∀ raw, rule.client = some raw → ∃ scope, ClientScope.parse raw = some scope ∧
      scope.admits ctx.ip ctx.name = true) ↔ w.MeetsClient ctx := by
    rw [h.client, WrittenRule.MeetsClient]
    exact (forall_value_iff _ fun value => ∃ scope, ClientScope.parse value = some scope ∧
      scope.admits ctx.ip ctx.name = true).symm
  have hparty : (rule.party = .any ∨
      Url.isThirdParty request = decide (rule.party = .third)) ↔
      ∀ token, lastOf .party w.tokens = some token →
        Url.isThirdParty request = decide (token.party = .third) := by
    rw [h.party]
    cases hlast : lastOf .party w.tokens with
    | none => simp
    | some token =>
      obtain ⟨-, hslot⟩ := mem_of_lastOf hlast
      have hsome : token.party ≠ .any := by
        rw [OptionToken.party]
        revert hslot
        cases token.kind <;> cases token.negated <;> simp [OptionKind.slot]
      rw [Option.elim_some, or_iff_right hsome]
      exact ⟨fun heq t ht => Option.some.inj ht ▸ heq, fun hall => hall token rfl⟩
  constructor
  · rintro ⟨hv, hadm, hpattern⟩
    exact ⟨hv, (h.accepts _).mp hpattern, hparty.mp hadm.party, (h.types _).mp hadm.types,
      hdomains.mp hadm.domains, hmethods.mp hadm.methods, hclient.mp hadm.client⟩
  · rintro ⟨hv, hm⟩
    exact ⟨hv, ⟨hparty.mpr hm.party, (h.types _).mpr hm.types, hmethods.mpr hm.method,
      hdomains.mpr hm.document, hclient.mpr hm.client⟩, (h.accepts _).mpr hm.pattern⟩

lemma mem_rules_of_line (hformat : detectFormat text = .adblock) (hmem : line ∈ Lib.lines text)
    (hline : Adblock.parseLine line = .rules [kind]) : kind ∈ (parseRuleList text).rules := by
  have hkeep : ∀ (entries : List (Bytes × Nat)) (acc : List RuleKind × ParseErrorLog),
      kind ∈ acc.1 → kind ∈ (entries.foldl (collectStep Adblock.parseLine) acc).1 := by
    intro entries
    induction entries with
    | nil => exact fun _ h => h
    | cons entry entries ih =>
      intro acc hacc
      refine ih _ ?_
      rw [collectStep]
      split
      · exact hacc
      · exact hacc
      · exact mem_append_left _ hacc
  have hfind : ∀ (texts : List Bytes) (k : Nat) (acc : List RuleKind × ParseErrorLog),
      line ∈ texts → kind ∈ ((texts.zipIdx k).foldl (collectStep Adblock.parseLine) acc).1 := by
    intro texts
    induction texts with
    | nil => exact fun _ _ h => by cases h
    | cons t texts ih =>
      intro k acc ht
      rw [zipIdx_cons, foldl_cons]
      rcases mem_cons.mp ht with rfl | ht
      · refine hkeep _ _ ?_
        rw [collectStep, hline]
        exact mem_append_right _ (mem_singleton_self kind)
      · exact ih _ _ ht
  rw [parseRuleList, hformat]
  exact hfind _ _ _ hmem

/-- **What a compiled rule accepts is what its line asks for**, by the pattern and
the options in force. -/
theorem accepts_iff_meets (h : Ruleset m policies lists)
    (hctx : policies &&& ctx.policyBit ≠ 0) (hlist : list ∈ lists)
    (hformat : detectFormat list.text = .adblock) (hmem : line ∈ Lib.lines list.text) (hline : Adblock.parseLine line = .rules [kind])
    (hactive : ∀ reason, kind ≠ .inactive reason) (occasion : Occasion) :
    m.Accepts kind ctx occasion ↔ Seen lists ctx kind ∧ (written line).Meets ctx occasion := by
  have hrules := mem_rules_of_line hformat hmem hline
  obtain ⟨id, hid⟩ : ∃ id, (list, id) ∈ lists.zipIdx := by
    obtain ⟨id, hget⟩ := getElem?_of_mem hlist
    exact ⟨id, mem_zipIdx_iff_getElem?.mpr hget⟩
  cases kind with
  | inactive reason => exact absurd rfl (hactive reason)
  | active rule =>
    have hreads := readsHost_of_parseLine hline
    have hx : ((rule, id), list.mask) ∈ entriesOf lists 0 := by
      refine mem_flatMap.mpr ⟨_, hid, mem_map.mpr ⟨rule, ?_, rfl⟩⟩
      exact mem_filterMap.mpr ⟨_, hrules, rfl⟩
    have happ := h.takesPart_iff hctx hx occasion.name occasion.qtype
    rw [Matcher.Accepts, happ, hreads.applies_iff]
    refine and_congr_right fun _ => ?_
    cases occasion with
    | question name qtype => exact (and_iff_right hreads.hostOnly).symm
    | request r => simp [WrittenRule.Meets, hreads.hostOnly, Occasion.name, Occasion.qtype]
  | url rule =>
    have hreads := readsUrl_of_parseLine hline
    cases occasion with
    | question name qtype => simp [Matcher.Accepts, WrittenRule.Meets, hreads.hostOnly]
    | request r =>
      have hx : ((rule, id), list.mask) ∈ urlEntriesOf lists 0 := by
        refine mem_flatMap.mpr ⟨_, hid, mem_map.mpr ⟨rule, ?_, rfl⟩⟩
        exact mem_filterMap.mpr ⟨_, hrules, rfl⟩
      have happ := h.check_iff hctx hx hreads.storable r
      rw [Matcher.Accepts, happ, hreads.applies_iff]
      simp [WrittenRule.Meets, hreads.hostOnly]

/-- **When no restriction is lost.** Every option written on a line holds of every
occasion its compiled rule accepts, exactly when the options that are not in
force hold of every occasion that meets the line by those that are. -/
theorem restrictions_kept_iff {expectedRules : Nat}
    (hm : compile expectedRules policies lists = some m) {list : SourceList}
    (hlist : list ∈ lists) (hformat : detectFormat list.text = .adblock)
    (hmem : line ∈ Lib.lines list.text) {kind : RuleKind}
    (hline : Adblock.parseLine line = .rules [kind]) (hactive : ∀ reason, kind ≠ .inactive reason) :
    (∀ (ctx : ClientContext) (occasion : Occasion), policies &&& ctx.policyBit ≠ 0 →
        m.Accepts kind ctx occasion → (written line).Holds ctx occasion) ↔
      ∀ (ctx : ClientContext) (occasion : Occasion), policies &&& ctx.policyBit ≠ 0 →
        Seen lists ctx kind → (written line).Meets ctx occasion →
        ∀ token ∈ lost (written line).hostOnly (written line).tokens,
          token.Holds (written line).pattern ctx occasion := by
  have hrules := compile_ruleset hm
  have husable : ∀ token ∈ (written line).tokens, token.usable = true := by
    cases kind with
    | inactive reason => exact absurd rfl (hactive reason)
    | active rule => exact (readsHost_of_parseLine hline).usable
    | url rule => exact (readsUrl_of_parseLine hline).usable
  constructor
  · intro hall ctx occasion hctx hseen hmeets token htoken
    have haccepts := (accepts_iff_meets hrules hctx hlist hformat hmem hline hactive occasion).mpr
      ⟨hseen, hmeets⟩
    exact (hall ctx occasion hctx haccepts).1 token (mem_of_mem_lost htoken)
  · intro hlost ctx occasion hctx haccepts
    obtain ⟨hseen, hmeets⟩ :=
      (accepts_iff_meets hrules hctx hlist hformat hmem hline hactive occasion).mp haccepts
    exact WrittenRule.holds_of_lost husable hmeets (hlost ctx occasion hctx hseen hmeets)

/-- A line that restricts a path to one record type. -/
def dnstypeLine : Bytes := lit "||ads.com/x$dnstype=A"

def dnstypeLists : List SourceList := [⟨lit "one", dnstypeLine, 1⟩]

def dnstypeRule : UrlRule where
  pattern := lit "ads.com/x"
  action := .block
  anchor := .domain
  endAnchored := false
  matchCase := false
  party := .any
  resourceTypes := 0
  domains := none
  methods := none
  client := none

def dnstypeRequest : HttpRequest where
  url := lit "http://ads.com/x"
  host := lit "ads.com"
  method := lit "GET"
  resourceType := .image
  documentHost := none

lemma parseLine_dnstypeLine : Adblock.parseLine dnstypeLine = .rules [.url dnstypeRule] := by
  decide +kernel

/-- The line is compiled without its record type: the rule blocks a request. -/
theorem dnstype_decides_request :
    ∃ m, compile 0 1 dnstypeLists = some m ∧
      m.lookupHttpIn dnstypeRequest ⟨⟨0⟩, none, none⟩ = some (.block (.ofUrl 0)) ∧
      m.Accepts (.url dnstypeRule) ⟨⟨0⟩, none, none⟩ (.request dnstypeRequest) ∧
      ¬ (written dnstypeLine).Holds ⟨⟨0⟩, none, none⟩ (.request dnstypeRequest) := by
  have hrun : ((compile 0 1 dnstypeLists).any fun m =>
      decide (m.lookupHttpIn dnstypeRequest ⟨⟨0⟩, none, none⟩ = some (.block (.ofUrl 0))) &&
      decide ((m.url.check 0 (.new dnstypeRequest ⟨⟨0⟩, none, none⟩) .new).1 = some false)) =
      true := by
    decide +kernel
  obtain ⟨m, hm, hrun⟩ := (Option.any_eq_true _ _).mp hrun
  rw [Bool.and_eq_true, decide_eq_true_eq, decide_eq_true_eq] at hrun
  have he : (mergedUrls (urlEntriesOf dnstypeLists 0))[0]? = some ((dnstypeRule, 0), 1) := by
    decide +kernel
  obtain ⟨r, hs⟩ := (compile_ruleset hm).stored he
  refine ⟨m, hm, hrun.1, ⟨0, hs.names, hrun.2⟩, fun hholds => ?_⟩
  have htoken : (⟨lit "dnstype", false, some (lit "A")⟩ : OptionToken) ∈
      (written dnstypeLine).tokens := by
    decide +kernel
  have := hholds.1 _ htoken
  exact this

theorem restrictions_kept_iff_dnstype :
    ∃ m, compile 0 1 dnstypeLists = some m ∧
      Adblock.parseLine dnstypeLine = .rules [.url dnstypeRule] ∧
      ((∀ (ctx : ClientContext) (occasion : Occasion), 1 &&& ctx.policyBit ≠ 0 →
          m.Accepts (.url dnstypeRule) ctx occasion → (written dnstypeLine).Holds ctx occasion) ↔
        ∀ (ctx : ClientContext) (occasion : Occasion), 1 &&& ctx.policyBit ≠ 0 →
          Seen dnstypeLists ctx (.url dnstypeRule) → (written dnstypeLine).Meets ctx occasion →
          ∀ token ∈ lost (written dnstypeLine).hostOnly (written dnstypeLine).tokens,
            token.Holds (written dnstypeLine).pattern ctx occasion) := by
  have hrun : (compile 0 1 dnstypeLists).isSome = true := by decide +kernel
  obtain ⟨m, hm⟩ := Option.isSome_iff_exists.mp hrun
  have hlist : ⟨lit "one", dnstypeLine, 1⟩ ∈ dnstypeLists := mem_singleton_self _
  refine ⟨m, hm, parseLine_dnstypeLine, ?_⟩
  exact restrictions_kept_iff hm hlist (by decide +kernel) (by decide +kernel)
    parseLine_dnstypeLine (by simp)

end Lines

end FastAdHunter.Rules
