import FastAdHunter.Rules.Matcher

/-!
# What a compiled ruleset decides

The verdicts of a ruleset in terms of the lists it was compiled from: the domain
tier names the decisive rule of its lists, the two tiers together miss no rule
that applies to a request, and a URL pattern matches what it says.
-/

namespace FastAdHunter.Rules

open Lib Net

/-- **The domain-tier verdict.** Lists that fit compile, and for every policy that
exists the lookup of any name names the earliest added rule, on the longest
suffix, of the class that wins: an applicable allow, else an applicable block. -/
theorem lookup_domain_of_lists (expectedRules : Nat) (policies : UInt16)
    {lists : List SourceList} (hsized : Sized lists) :
    ∃ m, compile expectedRules policies lists = some m ∧
      ∀ ctx : ClientContext, policies &&& ctx.policyBit ≠ 0 →
        ∀ (name : Bytes) (qtype : Option QueryType),
          ∃ d, m.domain.lookupDomain name (qtype.map qtypeBit) ctx = some d ∧
            d.Sound m.domain (entriesOf lists 0) (Applies (entriesOf lists 0) name qtype ctx) := by
  obtain ⟨m, hm, hrules⟩ := compile_spec expectedRules policies hsized
  refine ⟨m, hm, fun ctx hctx name qtype => ?_⟩
  exact hrules.domain.lookupDomain_verdict hctx (fits_entriesOf lists 0) name qtype

/-- A list with a block, and an exception for one name below it. -/
def sampleLists : List SourceList :=
  [⟨lit "base", lit "||ads.com^\n@@||ok.ads.com^", 3⟩, ⟨lit "more", lit "||ads.com^", 1⟩]

lemma sized_sampleLists : Sized sampleLists where
  domain := by
    rw [TooLarge]
    decide +kernel
  url := by
    rw [Url.UrlTooLarge]
    decide +kernel
  lists := by decide

theorem lookup_domain_of_lists_sample :
    Sized sampleLists ∧
      ∃ m, compile 0 3 sampleLists = some m ∧
        ∃ d, m.domain.lookupDomain (lit "x.ads.com.") ((some .a : Option QueryType).map qtypeBit)
            ⟨⟨1⟩, none, none⟩ = some d ∧
          d.Sound m.domain (entriesOf sampleLists 0)
            (Applies (entriesOf sampleLists 0) (lit "x.ads.com.") (some .a)
              ⟨⟨1⟩, none, none⟩) := by
  obtain ⟨m, hm, hall⟩ := lookup_domain_of_lists 0 3 sized_sampleLists
  exact ⟨sized_sampleLists, m, hm, hall ⟨⟨1⟩, none, none⟩ (by decide) _ _⟩

/-- Some rule of this class applies to a request: a URL rule whose check accepts
it, run on its own, or a domain rule that takes part for the host. -/
def Matcher.RuleApplies (m : Matcher) (request : HttpRequest) (ctx : ClientContext)
    (action : RuleAction) : Prop :=
  (∃ i, (m.url.check i (.new request ctx) .new).1 = some (decide (action = .allow))) ∨
    ∃ i, m.domain.TakesPart request.host none ctx action i

/-- What a verdict on a request says about all rules. -/
def Matcher.RequestVerdict (m : Matcher) (request : HttpRequest) (ctx : ClientContext) :
    MatchDecision → Prop
  | .allow _ => m.RuleApplies request ctx .allow
  | .block _ => ¬ m.RuleApplies request ctx .allow ∧ m.RuleApplies request ctx .block
  | .pass => ∀ action, ¬ m.RuleApplies request ctx action

lemma requestVerdict_of_tiers {m : Matcher}
    (hurl : Url.Verdict m.url request ctx (m.url.lookup request ctx).1)
    (hlookup : m.domain.lookupDomain request.host none ctx = some d)
    (hdomain : m.domain.Verdict request.host none ctx d) :
    ∃ decision, m.lookupHttpIn request ctx = some decision ∧
      m.RequestVerdict request ctx decision := by
  rw [Matcher.lookupHttpIn, hlookup]
  cases hfound : (m.url.lookup request ctx).1 with
  | allow i =>
    rw [hfound] at hurl
    exact ⟨_, rfl, .inl ⟨i, hurl⟩⟩
  | block i =>
    rw [hfound] at hurl
    have hblock : m.RuleApplies request ctx .block := .inl ⟨i, hurl.1⟩
    cases d with
    | allow j => exact ⟨_, rfl, .inr ⟨j, hdomain⟩⟩
    | block j =>
      refine ⟨_, rfl, ?_, hblock⟩
      rintro (⟨k, hk⟩ | ⟨k, hk⟩)
      · exact hurl.2 k hk
      · exact hdomain.2 k hk
    | pass =>
      refine ⟨_, rfl, ?_, hblock⟩
      rintro (⟨k, hk⟩ | ⟨k, hk⟩)
      · exact hurl.2 k hk
      · exact hdomain .allow k hk
  | pass =>
    rw [hfound] at hurl
    have hnone : ∀ action k, (m.url.check k (.new request ctx) .new).1 ≠
        some (decide (action = RuleAction.allow)) := by
      intro action k hk
      have := hurl k
      rw [Url.UrlIndex.answer, hk] at this
      cases this
    cases d with
    | allow j => exact ⟨_, rfl, .inr ⟨j, hdomain⟩⟩
    | block j =>
      refine ⟨_, rfl, ?_, .inr ⟨j, hdomain.1⟩⟩
      rintro (⟨k, hk⟩ | ⟨k, hk⟩)
      · exact hnone .allow k hk
      · exact hdomain.2 k hk
    | pass =>
      refine ⟨_, rfl, ?_⟩
      rintro action (⟨k, hk⟩ | ⟨k, hk⟩)
      · exact hnone action k hk
      · exact hdomain action k hk

lemma reaches_of_compile
    (hm : compile expectedRules policies lists = some m) (hkeys : m.url.KeysApart)
    (hr : m.url.records[i]? = some r) : Url.Reaches m.url i r := by
  obtain ⟨b, slots, -, hurl, htable⟩ := (compile_ruleset hm).url
  rw [hurl] at hkeys htable hr ⊢
  exact Url.reaches_of_compiled htable hkeys hr

/-- **The verdict on a request is complete**: no part of the index hides a rule
that applies, as long as the allowance covers one more rule to the end and no
bounded key shares its hash with a window. -/
theorem lookup_http_complete {expectedRules : Nat} {policies : UInt16}
    {lists : List SourceList} {m : Matcher}
    (hm : compile expectedRules policies lists = some m) (hkeys : m.url.KeysApart)
    {request : HttpRequest} {ctx : ClientContext}
    (hcap : ruleStepCap request.url.length ≤ (m.url.lookup request ctx).2.remaining) :
    ∃ decision, m.lookupHttpIn request ctx = some decision ∧
      m.RequestVerdict request ctx decision := by
  have hurl : Url.Verdict m.url request ctx (m.url.lookup request ctx).1 :=
    Url.UrlIndex.lookup_complete (fun i r hr => reaches_of_compile hm hkeys hr) hcap
  obtain ⟨d, hlookup, hdomain⟩ :=
    (compile_ruleset hm).domain.lookupDomain_complete request.host none ctx
  exact requestVerdict_of_tiers hurl hlookup hdomain

/-- Rules of both tiers, with a bounded key, a window key and no key at all. -/
def sampleRules : List SourceList :=
  [⟨lit "base", lit "||ads.com^
||cdn.com/ads/
*banner*
-$image
@@/good/", 3⟩]

def sampleRequest : HttpRequest where
  url := lit "http://cdn.com/ads/top"
  method := lit "GET"
  host := lit "cdn.com"
  documentHost := none
  resourceType := .image

theorem lookup_http_complete_sample :
    ∃ m, compile 0 3 sampleRules = some m ∧ m.url.KeysApart ∧ ruleStepCap sampleRequest.url.length ≤
        (m.url.lookup sampleRequest ⟨⟨1⟩, none, none⟩).2.remaining ∧
      ∃ decision, m.lookupHttpIn sampleRequest ⟨⟨1⟩, none, none⟩ = some decision ∧
        m.RequestVerdict sampleRequest ⟨⟨1⟩, none, none⟩ decision := by
  have hrun : ((compile 0 3 sampleRules).any fun m => decide m.url.KeysApart &&
      decide (ruleStepCap sampleRequest.url.length ≤
        (m.url.lookup sampleRequest ⟨⟨1⟩, none, none⟩).2.remaining)) = true := by
    decide +kernel
  obtain ⟨m, hm, hrun⟩ := (Option.any_eq_true _ _).mp hrun
  rw [Bool.and_eq_true, decide_eq_true_eq, decide_eq_true_eq] at hrun
  exact ⟨m, hm, hrun.1, hrun.2, lookup_http_complete hm hrun.1 hrun.2⟩

/-- What a URL rule says about a URL: somewhere its anchor allows, the pattern
describes the text. -/
def UrlRule.MatchesUrl (rule : UrlRule) (url : Bytes) : Prop :=
  ∃ start, StartsAt rule.anchor url (hostSpan url).1 (hostSpan url).2 start ∧
    Describes rule.endAnchored rule.matchCase rule.pattern start

lemma mergedUrls_eq (added : List Url.UrlEntry) :
    mergedUrls added = merge Url.sameUrlKey (· ||| ·)
      (added.filter fun x => Url.urlStorable x.1.1) := by
  rw [mergedUrls, merge, List.foldl_filter]
  rfl

lemma keys_mergedUrls (added : List Url.UrlEntry) :
    (mergedUrls added).map Prod.fst = distinct Url.sameUrlKey
      ((added.filter fun x => Url.urlStorable x.1.1).map Prod.fst) := by
  rw [mergedUrls_eq]
  exact keys_merge Url.isSame_sameUrlKey _

lemma mem_of_mem_mergedUrls (h : e ∈ mergedUrls added) : ∃ x ∈ added, x.1 = e.1 := by
  have hkey : e.1 ∈ (mergedUrls added).map Prod.fst := List.mem_map_of_mem h
  rw [keys_mergedUrls] at hkey
  obtain ⟨x, hx, heq⟩ := List.mem_map.mp (mem_of_mem_distinct hkey)
  exact ⟨x, (List.mem_filter.mp hx).1, heq⟩

lemma exists_list_of_mem_urlEntriesOf (h : x ∈ urlEntriesOf lists first) :
    ∃ list ∈ lists, RuleKind.url x.1.1 ∈ (parseRuleList list.text).rules := by
  obtain ⟨⟨list, id⟩, hlist, hx⟩ := List.mem_flatMap.mp h
  obtain ⟨rule, hrule, rfl⟩ := List.mem_map.mp hx
  obtain ⟨kind, hkind, hsome⟩ := List.mem_filterMap.mp hrule
  refine ⟨list, ?_, ?_⟩
  · exact List.fst_mem_of_mem_zipIdx hlist
  · cases kind with
    | active r => cases hsome
    | url r =>
      cases hsome
      exact hkind
    | inactive reason => cases hsome

/-- **A pattern matches what it says.** Every compiled record stands for a URL
rule of the lists, and while the allowance covers the rule's own cap, the pattern
part of its check accepts exactly the URLs the rule describes. -/
theorem check_pattern_exact {expectedRules : Nat} {policies : UInt16}
    {lists : List SourceList} {m : Matcher} (hm : compile expectedRules policies lists = some m)
    {i : Nat} {r : Url.Record} (hr : m.url.records[i]? = some r)
    {request : HttpRequest} {ctx : ClientContext} {budget : Budget}
    (hcap : ruleStepCap request.url.length ≤ budget.remaining) :
    ∃ list ∈ lists, ∃ rule, RuleKind.url rule ∈ (parseRuleList list.text).rules ∧
      m.url.patternOf r = rule.pattern ∧
      ((m.url.checkPattern r (.new request ctx) budget).1 = true ↔
        rule.MatchesUrl request.url) := by
  obtain ⟨b, slots, hstores, hurl, -⟩ := (compile_ruleset hm).url
  have hrecords : m.url.records = b.records := by rw [hurl]; rfl
  have hpatterns : m.url.patterns = b.patterns := by rw [hurl]; rfl
  have hlt : i < (mergedUrls (urlEntriesOf lists 0)).length := by
    have hlen := Url.Rep.recordsLength hstores
    rw [List.length_map] at hlen
    rw [← hlen, ← hrecords]
    exact (List.getElem?_eq_some_iff.mp hr).1
  have he := List.getElem?_eq_getElem hlt
  generalize (mergedUrls (urlEntriesOf lists 0))[i] = e at he
  obtain ⟨r', hr', hdec⟩ := Url.Rep.record hstores i e.1.1 (by rw [List.getElem?_map, he]; rfl)
  rw [hrecords, hr'] at hr
  cases hr
  obtain ⟨x, hx, hkey⟩ := mem_of_mem_mergedUrls (List.mem_of_getElem? he)
  obtain ⟨list, hlist, hrule⟩ := exists_list_of_mem_urlEntriesOf hx
  rw [hkey] at hrule
  have hpattern : m.url.patternOf r = e.1.1.pattern := by
    rw [Url.UrlIndex.patternOf, hpatterns]
    exact hdec.pattern
  refine ⟨list, hlist, e.1.1, hrule, hpattern, ?_⟩
  obtain ⟨-, hend, hcase, -, -, hanchor, -⟩ := Url.record_flagsOf e.1.1 r hdec.flags
  rw [Url.checkPattern_iff r budget hcap, hpattern, hanchor, hend, hcase]
  have hfold := parseRuleList_normal list.text _ hrule
  exact exists_congr fun start => and_congr Iff.rfl (describes_iff hfold start)

theorem check_pattern_exact_sample :
    ∃ m, compile 0 3 sampleRules = some m ∧ ∃ r, m.url.records[1]? = some r ∧
      ruleStepCap sampleRequest.url.length ≤ Budget.new.remaining ∧
      ∃ list ∈ sampleRules, ∃ rule, RuleKind.url rule ∈ (parseRuleList list.text).rules ∧
        m.url.patternOf r = rule.pattern ∧
        ((m.url.checkPattern r (.new sampleRequest ⟨⟨1⟩, none, none⟩) .new).1 = true ↔
          rule.MatchesUrl sampleRequest.url) := by
  have hrun : ((compile 0 3 sampleRules).any fun m => m.url.records[1]?.isSome) = true := by
    decide +kernel
  obtain ⟨m, hm, hrun⟩ := (Option.any_eq_true _ _).mp hrun
  obtain ⟨r, hr⟩ := Option.isSome_iff_exists.mp hrun
  have hcap : ruleStepCap sampleRequest.url.length ≤ Budget.new.remaining := by decide
  exact ⟨m, hm, r, hr, hcap, check_pattern_exact hm hr hcap⟩

end FastAdHunter.Rules
