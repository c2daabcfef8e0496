import FastAdHunter.Rules.Restrictions

/-!
# Every rule is accounted for

A builder drops a rule whose texts do not fit a record or whose client payload has no
selector. The parsers let no such rule through: what they count is compiled, or removed
as a duplicate and counted as one.
-/

namespace FastAdHunter.Rules

open Lib Probing List

/-- A rule that its builder keeps. -/
def RuleKind.Storable : RuleKind → Prop
  | .active rule => storable rule = true
  | .url rule => Url.urlStorable rule = true
  | .inactive _ => True

lemma storable_of_normal (h : IsNormalDomain rule.domain)
    (hscope : (DomainBuilder.compileScope rule).isSome = true) : storable rule = true := by
  have hpos := length_pos_of_ne_nil h.ne_nil
  have hle : rule.domain.length ≤ 255 := h.length_le.trans (by decide)
  simp [storable, hpos, hle, hscope]

lemma storable_plain (h : normalizeDomain candidate = some domain) :
    (RuleKind.active (.plain domain .block true)).Storable :=
  storable_of_normal (normalizeDomain_spec h) rfl

lemma Hosts.parseLine_storable
    (h : Hosts.parseLine line = .rules found) : ∀ rule ∈ found, rule.Storable := by
  simp only [Hosts.parseLine] at h
  split at h
  · cases h
  · split at h
    · cases h
    · split at h
      · cases h
      · split at h
        · cases h
          intro rule hrule
          obtain ⟨result, hmem, hsome⟩ := mem_filterMap.mp hrule
          obtain ⟨host, -, rfl⟩ := mem_map.mp hmem
          simp only [hostRule] at hsome
          split at hsome
          · cases hsome
          · split at hsome
            · cases hsome
            · next hd =>
              cases hsome
              exact storable_plain hd
        · cases h

lemma DomainList.parseLine_storable
    (h : DomainList.parseLine line = .rules found) : ∀ rule ∈ found, rule.Storable := by
  simp only [DomainList.parseLine] at h
  split at h
  · cases h
  · split at h
    · next hd =>
      cases h
      exact forall_mem_singleton.mpr (storable_plain hd)
    · cases h

/-- A line of an adblock list gives one rule. -/
lemma Adblock.parseLine_single
    (h : Adblock.parseLine line = .rules found) : ∃ kind, found = [kind] := by
  have hrule : ∀ {line}, Adblock.parseRule line = .rules found → ∃ kind, found = [kind] := by
    intro line h
    simp only [Adblock.parseRule, Adblock.classify] at h
    repeat' split at h
    all_goals cases h
    all_goals exact ⟨_, rfl⟩
  simp only [Adblock.parseLine] at h
  split at h
  · cases h
  · split at h
    · cases h
    · split at h
      · split at h
        · cases h
        · cases h
          exact ⟨_, rfl⟩
      · split at h
        · cases h
        · exact hrule h

lemma Adblock.parseLine_storable
    (h : Adblock.parseLine line = .rules found) : ∀ rule ∈ found, rule.Storable := by
  obtain ⟨kind, rfl⟩ := Adblock.parseLine_single h
  refine forall_mem_singleton.mpr ?_
  have hparsed := Adblock.parseLine_parsed line
  rw [h] at hparsed
  have hnormal := (hparsed kind (mem_singleton_self kind)).normal
  cases kind with
  | inactive reason => trivial
  | url rule => exact (readsUrl_of_parseLine h).storable
  | active rule =>
    refine storable_of_normal hnormal ?_
    have hreads := readsHost_of_parseLine h
    rw [DomainBuilder.compileScope]
    split
    · rfl
    · next raw hraw => simpa using parses_of_usable hreads.usable (hreads.client.symm.trans hraw)

/-- **The parsers count no rule that a builder drops.** -/
theorem parseRuleList_storable (text : Bytes) :
    ∀ rule ∈ (parseRuleList text).rules, rule.Storable := by
  rw [parseRuleList]
  split
  · exact collectLines_all (fun _ _ => Hosts.parseLine_storable) text
  · exact collectLines_all (fun _ _ => DomainList.parseLine_storable) text
  · exact collectLines_all (fun _ _ => Adblock.parseLine_storable) text

/-- The rules a builder has taken: those it holds, and the duplicates. -/
def DomainBuilder.taken (b : DomainBuilder) : Nat :=
  b.records.length + b.duplicatesRemoved

def Url.UrlIndexBuilder.taken (b : Url.UrlIndexBuilder) : Nat :=
  b.records.length + b.duplicatesRemoved

lemma DomainBuilder.reserveDedup_taken {b b' : DomainBuilder} (h : b.reserveDedup = some b') :
    b'.taken = b.taken := by
  simp only [DomainBuilder.reserveDedup] at h
  split at h
  · cases h
    rfl
  · obtain ⟨grown, -, heq⟩ := Option.bind_eq_some_iff.mp h
    cases heq
    rfl

/-- What a call that returns has done: nothing, for a rule that is not kept, or else it has
found the rule or pushed it, once the table has room. -/
lemma DomainBuilder.addRule_cases {b b' : DomainBuilder} (h : b.addRule listId rule = some b') :
    (storable rule = false ∧ b' = b) ∨
      (storable rule = true ∧ ∃ reserved, b.reserveDedup = some reserved ∧
        ((∃ idx mask, b' =
            { reserved with
              recordPolicy := reserved.recordPolicy.modify idx (· ||| mask)
              duplicatesRemoved := reserved.duplicatesRemoved + 1 }) ∨
          ∃ flags scope mask slot, reserved.pushRecord listId rule flags scope mask slot = some b')) := by
  simp only [addRule] at h
  split at h
  next hlen =>
    cases h
    refine .inl ⟨?_, rfl⟩
    simp only [storable, Bool.and_eq_false_iff, decide_eq_false_iff_not]
    omega
  next hlen =>
    split at h
    next hscope =>
      cases h
      exact .inl ⟨by simp [storable, hscope], rfl⟩
    next scope hscope =>
      have hst : storable rule = true := by
        simp only [storable, hscope, Option.isSome_some, Bool.and_true, Bool.and_eq_true,
          decide_eq_true_eq]
        omega
      simp only [Option.bind_eq_bind, Option.bind_eq_some_iff, dedupSlotFor] at h
      obtain ⟨mask, -, ⟨reserved, slot⟩, ⟨b₁, hreserve, result, -, hslot⟩, h⟩ := h
      have hsame : reserved = b₁ := by
        cases result with
        | error idx =>
          cases hslot
          rfl
        | ok found =>
          cases hslot
          rfl
      subst hsame
      refine .inr ⟨hst, reserved, hreserve, ?_⟩
      cases slot with
      | duplicate idx =>
        cases h
        exact .inl ⟨idx, mask, rfl⟩
      | vacant slot => exact .inr ⟨_, scope, mask, slot, h⟩

lemma DomainBuilder.pushRecord_counts {b b' : DomainBuilder}
    (h : b.pushRecord listId rule flags scope mask slot = some b') :
    b'.records.length = b.records.length + 1 ∧ b'.duplicatesRemoved = b.duplicatesRemoved ∧
      b'.dedup.length = b.dedup.length := by
  simp only [pushRecord] at h
  split at h
  · cases h
  · split at h
    · cases h
    · cases h
      exact ⟨by simp, rfl, by simp⟩

lemma DomainBuilder.addRule_taken {b b' : DomainBuilder}
    (hst : storable rule = true) (h : b.addRule listId rule = some b') :
    b'.taken = b.taken + 1 := by
  obtain ⟨hno, -⟩ | ⟨-, reserved, hreserve, ⟨idx, mask, rfl⟩ | ⟨flags, scope, mask, slot, hpush⟩⟩ :=
    DomainBuilder.addRule_cases h
  · rw [hst] at hno
    cases hno
  · rw [← DomainBuilder.reserveDedup_taken hreserve]
    rfl
  · obtain ⟨hrecords, hduplicates, -⟩ := DomainBuilder.pushRecord_counts hpush
    rw [← DomainBuilder.reserveDedup_taken hreserve, taken, taken, hrecords, hduplicates]
    omega

lemma Url.UrlIndexBuilder.add_taken {b b' : Url.UrlIndexBuilder} (hst : Url.urlStorable rule = true)
    (h : b.add listId rule mask = some b') : b'.taken = b.taken + 1 := by
  simp only [Url.urlStorable, Bool.and_eq_true, decide_eq_true_eq] at hst
  obtain ⟨scope, hscope⟩ := Option.isSome_iff_exists.mp hst.2
  simp only [Url.UrlIndexBuilder.add, hscope] at h
  rw [if_neg (by omega)] at h
  split at h
  · cases h
    rfl
  · simp only [Url.UrlIndexBuilder.push] at h
    split at h
    · cases h
    · cases h
      simp only [Url.UrlIndexBuilder.taken, length_append, length_singleton]
      omega

lemma foldlM_addKind_taken (hst : ∀ rule ∈ rules, rule.Storable)
    (h : rules.foldlM (MatcherBuilder.addKind listId) b = some b') :
    b'.domain.taken = b.domain.taken + (domainRules rules).length ∧
      b'.url.taken = b.url.taken + (urlRules rules).length := by
  induction rules generalizing b with
  | nil =>
    cases h
    exact ⟨rfl, rfl⟩
  | cons rule rules ih =>
    obtain ⟨hrule, hrules⟩ := forall_mem_cons.mp hst
    obtain ⟨b₁, hadd, h⟩ := Option.bind_eq_some_iff.mp h
    have hrest := ih hrules h
    cases rule with
    | inactive reason =>
      cases hadd
      exact hrest
    | active rule =>
      obtain ⟨domain, hdomain, rfl⟩ := Option.map_eq_some_iff.mp hadd
      have htaken := DomainBuilder.addRule_taken hrule hdomain
      have hlength : (domainRules (.active rule :: rules)).length =
          (domainRules rules).length + 1 := rfl
      refine ⟨?_, hrest.2⟩
      rw [hrest.1, hlength, htaken]
      omega
    | url rule =>
      simp only [MatcherBuilder.addKind, MatcherBuilder.addUrlRule, Option.bind_eq_bind,
        Option.bind_eq_some_iff] at hadd
      obtain ⟨mask, -, url, hurl, heq⟩ := hadd
      cases heq
      have htaken := Url.UrlIndexBuilder.add_taken hrule hurl
      have hlength : (urlRules (.url rule :: rules)).length = (urlRules rules).length + 1 := rfl
      refine ⟨hrest.1, ?_⟩
      rw [hrest.2, hlength, htaken]
      omega

lemma foldlM_addLists_taken {lists : List SourceList} {b b' : MatcherBuilder}
    (h : lists.foldlM (fun b list =>
      b.addParsedListMasked list.name (parseRuleList list.text) list.mask) b = some b') :
    b'.domain.taken = b.domain.taken +
        (lists.map fun list => (domainRules (parseRuleList list.text).rules).length).sum ∧
      b'.url.taken = b.url.taken +
        (lists.map fun list => (urlRules (parseRuleList list.text).rules).length).sum := by
  induction lists generalizing b with
  | nil =>
    cases h
    exact ⟨rfl, rfl⟩
  | cons list lists ih =>
    obtain ⟨b₁, hadd, h⟩ := Option.bind_eq_some_iff.mp h
    have hrest := ih h
    obtain ⟨⟨domain, listId⟩, hlist, hkinds⟩ := Option.bind_eq_some_iff.mp hadd
    have hfirst := foldlM_addKind_taken (parseRuleList_storable list.text) hkinds
    have hbase : domain.taken = b.domain.taken := by
      rw [DomainBuilder.addListMasked] at hlist
      split at hlist
      · cases hlist
        rfl
      · cases hlist
    rw [map_cons, sum_cons, map_cons, sum_cons]
    dsimp only at hfirst
    omega

/-- **No rule is dropped silently.** Whatever lists compile together, the rules for names
and those for requests that were parsed are in each tier those compiled and the duplicates
removed. -/
theorem rules_accounted {expectedRules : Nat} {policies : UInt16} {lists : List SourceList}
    {m : Matcher} (h : compile expectedRules policies lists = some m) :
    (lists.map fun list => (domainRules (parseRuleList list.text).rules).length).sum =
        m.domain.records.length + m.domain.duplicatesRemoved ∧
      (lists.map fun list => (urlRules (parseRuleList list.text).rules).length).sum =
        m.url.records.length + m.url.duplicatesRemoved := by
  obtain ⟨b, hlists, hbuild⟩ := Option.bind_eq_some_iff.mp h
  obtain ⟨hdomain, hurl⟩ := foldlM_addLists_taken hlists
  obtain ⟨domain, hbuilt, hrest⟩ := Option.bind_eq_some_iff.mp hbuild
  obtain ⟨slots, -, hdomain'⟩ := Option.bind_eq_some_iff.mp hbuilt
  obtain ⟨url, hurl', heq⟩ := Option.bind_eq_some_iff.mp hrest
  obtain ⟨urlSlots, -, hurl''⟩ := Option.bind_eq_some_iff.mp hurl'
  cases hdomain'
  cases hurl''
  cases heq
  refine ⟨?_, ?_⟩
  · exact ((Nat.zero_add _).symm.trans hdomain.symm)
  · exact ((Nat.zero_add _).symm.trans hurl.symm)

/-- Two lists that share a rule of each kind. -/
theorem rules_accounted_shared :
    ∃ m, compile 0 1 [⟨lit "base", lit "||ads.com^\n||ads.com/x", 1⟩,
        ⟨lit "more", lit "||ads.com/x\n||bad.com^\n||ads.com^", 1⟩] = some m ∧
      m.domain.records.length + m.domain.duplicatesRemoved = 3 ∧
      m.url.records.length + m.url.duplicatesRemoved = 2 := by
  have hsome : (compile 0 1 [⟨lit "base", lit "||ads.com^\n||ads.com/x", 1⟩,
      ⟨lit "more", lit "||ads.com/x\n||bad.com^\n||ads.com^", 1⟩]).isSome = true := by
    decide +kernel
  obtain ⟨m, hm⟩ := Option.isSome_iff_exists.mp hsome
  obtain ⟨hdomain, hurl⟩ := rules_accounted hm
  exact ⟨m, hm, hdomain.symm.trans (by decide +kernel), hurl.symm.trans (by decide +kernel)⟩

end FastAdHunter.Rules
