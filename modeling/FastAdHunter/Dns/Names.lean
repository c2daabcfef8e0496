import FastAdHunter.Dns.Pipeline
import FastAdHunter.Rules.Parser.Canonical

/-!
# Names on the wire and names in rules

A question's name is a list of labels; the pipeline judges the text the wire
library shows for it. A rule for a domain covers a name label by label, but the
lookup compares texts. The two agree exactly when every label under the rule is
shown as it is and no label spells the end of the domain inside itself.
-/

namespace FastAdHunter.Dns

open Lib Net Rules List

section Covering

/-- The pieces of a name are those of the rule's domain, or end in them. -/
def CoversPieces (rule : DomainRule) (pieces : List Bytes) : Prop :=
  if rule.includeSubdomains then splitBy (· == ch '.') rule.domain <:+ pieces
  else pieces = splitBy (· == ch '.') rule.domain

instance (rule : DomainRule) (pieces : List Bytes) : Decidable (CoversPieces rule pieces) :=
  if h : rule.includeSubdomains then
    decidable_of_iff (splitBy (· == ch '.') rule.domain <:+ pieces)
      (by rw [CoversPieces, if_pos h])
  else
    decidable_of_iff (pieces = splitBy (· == ch '.') rule.domain)
      (by rw [CoversPieces, if_neg h])

/-- A rule covers a name: label by label and up to case, the name is the rule's
domain or lies under it. -/
def CoversName (rule : DomainRule) (name : Name) : Prop :=
  CoversPieces rule (name.labels.map lower)

/-- A rule covers a text, as the lookup compares them. -/
def CoversText (rule : DomainRule) (text : Bytes) : Prop :=
  lower (dropDot text) = lower rule.domain ∨
    (rule.includeSubdomains = true ∧
      ∃ front, lower (dropDot text) = front ++ ch '.' :: lower rule.domain)

variable (lib : WireLibrary)

/-- The pieces between dots of a label as it is shown. -/
def shownPieces (label : Bytes) : List Bytes :=
  splitBy (· == ch '.') (lower (lib.showLabel label))

/-- The domain is spelt from a dot inside a label on. -/
def SpeltInside (rule : DomainRule) (name : Name) : Prop :=
  ∃ front label rest a b, name.labels = front ++ label :: rest ∧
    lower (lib.showLabel label) = a ++ ch '.' :: b ∧
    rule.domain = joinBy (ch '.') (b :: rest.map fun l => lower (lib.showLabel l))

/-- A name is shown as its labels as far as a rule is concerned: the labels a
covering rule compares are shown as they are, and a rule that does not cover the
name is not spelt inside a label. -/
structure ShowsLabels (rule : DomainRule) (name : Name) : Prop where
  covered : CoversName rule name →
    ∀ label ∈ name.labels.drop (name.labels.length -
      (splitBy (· == ch '.') rule.domain).length),
      lower (lib.showLabel label) = lower label
  apart : ¬ CoversName rule name → rule.includeSubdomains = true → ¬ SpeltInside lib rule name

lemma toLower_dot : toLower (ch '.') = ch '.' := rfl

lemma dropDot_domainText (name : Name) :
    lower (dropDot (lower (domainOf lib name))) =
      joinBy (ch '.') (name.labels.map fun l => lower (lib.showLabel l)) := by
  have hstrip : dropDot (lower (domainOf lib name)) =
      lower (joinBy (ch '.') (name.labels.map lib.showLabel)) := by
    have hdot : lower [ch '.'] = [ch '.'] := rfl
    rw [dropDot, domainOf, lower_append, hdot, (stripSuffix_eq_some_iff _ _ _).mpr rfl]
    rfl
  rw [hstrip, lower_lower, lower_joinBy toLower_dot, map_map]
  rfl

lemma splitBy_shown (h : labels ≠ []) :
    splitBy (· == ch '.') (joinBy (ch '.') (labels.map fun l => lower (lib.showLabel l))) =
      labels.flatMap (shownPieces lib) := by
  rw [splitBy_joinBy _ (by simpa using h), flatMap_map]
  rfl

variable {rule : DomainRule} {name : Name}

lemma coversText_iff (hdomain : IsNormalDomain rule.domain) :
    CoversText rule (lower (domainOf lib name)) ↔
      CoversPieces rule (name.labels.flatMap (shownPieces lib)) := by
  rw [CoversText, CoversPieces, dropDot_domainText, hdomain.lower_eq]
  by_cases hroot : name.labels = []
  · -- the root has an empty text, and no rule has an empty domain
    have hpieces := splitBy_ne_nil (· == ch '.') rule.domain
    rw [hroot]
    simp only [map_nil, flatMap_nil, joinBy, suffix_nil, hpieces]
    constructor
    · rintro (h | ⟨-, front, h⟩)
      · exact absurd h.symm hdomain.ne_nil
      · exact absurd h.symm (by simp)
    · split
      · exact False.elim
      · exact fun h => absurd h.symm hpieces
  · rw [← splitBy_shown lib hroot]
    by_cases hsub : rule.includeSubdomains = true
    · rw [if_pos hsub, suffix_splitBy_iff]
      simp [hsub]
    · rw [if_neg hsub]
      constructor
      · rintro (h | ⟨h, -⟩)
        · rw [h]
        · exact absurd h hsub
      · exact fun h => .inl (splitBy_injective h)

lemma isDomainByte_of_toLower :
    ∀ b : UInt8, isDomainByte (toLower b) = true → isDomainByte b = true := by
  decide +kernel

lemma shownPieces_of_bytes (h : ∀ w ∈ shownPieces lib label, ∀ b ∈ w, isDomainByte b = true) :
    shownPieces lib label = [lower label] := by
  have hbytes : ∀ b ∈ lib.showLabel label, isDomainByte b = true := by
    intro b hb
    apply isDomainByte_of_toLower
    have hlow : toLower b ∈ lower (lib.showLabel label) := mem_map_of_mem hb
    rcases mem_splitBy_of_mem (p := (· == ch '.')) hlow with hdot | ⟨w, hw, hmem⟩
    · rw [eq_of_beq hdot]
      decide
    · exact h w hw _ hmem
  obtain ⟨hshow, hdot⟩ := lib.verbatim label hbytes
  rw [shownPieces, hshow]
  apply splitBy_eq_singleton
  intro b hb
  obtain ⟨c, hc, rfl⟩ := mem_map.mp hb
  rw [beq_eq_false_iff_ne]
  intro heq
  exact hdot ((toLower_eq_dot_iff c).mp heq ▸ hc)

lemma flatMap_shownPieces_of_bytes {labels : List Bytes}
    (h : ∀ w ∈ labels.flatMap (shownPieces lib), ∀ b ∈ w, isDomainByte b = true) :
    labels.flatMap (shownPieces lib) = labels.map lower := by
  induction labels with
  | nil => rfl
  | cons label labels ih =>
    rw [flatMap_cons] at h ⊢
    rw [shownPieces_of_bytes lib fun w hw => h w (mem_append_left _ hw),
      ih fun w hw => h w (mem_append_right _ hw)]
    rfl

lemma shownPieces_of_dotless (h : ch '.' ∉ lower label) :
    shownPieces lib label = [lower (lib.showLabel label)] := by
  have hlabel : ch '.' ∉ label := by
    intro hmem
    exact h (toLower_dot ▸ mem_map_of_mem hmem)
  apply splitBy_eq_singleton
  intro b hb
  obtain ⟨c, hc, rfl⟩ := mem_map.mp hb
  rw [beq_eq_false_iff_ne]
  intro heq
  exact lib.oneLabel label hlabel ((toLower_eq_dot_iff c).mp heq ▸ hc)

lemma flatMap_shownPieces_of_dotless {labels : List Bytes}
    (h : ∀ label ∈ labels, ch '.' ∉ lower label) :
    labels.flatMap (shownPieces lib) = labels.map fun l => lower (lib.showLabel l) := by
  induction labels with
  | nil => rfl
  | cons label labels ih =>
    rw [flatMap_cons, shownPieces_of_dotless lib (h label mem_cons_self),
      ih fun l hl => h l (mem_cons_of_mem label hl)]
    rfl

lemma suffix_shown_iff (front : List Bytes)
    (hrest : rest.map lower = d) (hd : ∀ w ∈ d, ch '.' ∉ w) :
    d <:+ (front ++ rest).flatMap (shownPieces lib) ↔
      ∀ label ∈ rest, lower (lib.showLabel label) = lower label := by
  have hpieces : rest.flatMap (shownPieces lib) = rest.map fun l => lower (lib.showLabel l) := by
    apply flatMap_shownPieces_of_dotless
    intro label hlabel
    exact hd _ (hrest ▸ mem_map_of_mem hlabel)
  rw [flatMap_append, hpieces]
  constructor
  · rintro ⟨pre, hpre⟩
    have hlen : d.length = (rest.map fun l => lower (lib.showLabel l)).length := by
      rw [← hrest, length_map, length_map]
    have hend := (append_inj' hpre hlen).2
    rw [← hrest, map_inj_left] at hend
    exact fun label hlabel => (hend label hlabel).symm
  · intro hplain
    rw [map_congr_left hplain, hrest]
    exact suffix_append _ _

lemma suffix_shown_of_apart (hbytes : ∀ w ∈ d, ∀ b ∈ w, isDomainByte b = true) (hd : d ≠ [])
    (h : d <:+ labels.flatMap (shownPieces lib)) :
    d <:+ labels.map lower ∨ ∃ front label rest x y, labels = front ++ label :: rest ∧
        shownPieces lib label = x ++ y ∧ x ≠ [] ∧ y ≠ [] ∧
        d = y ++ rest.flatMap (shownPieces lib) := by
  rcases suffix_flatMap (shownPieces lib) hd h with ⟨front, rest, rfl, hrest⟩ | hinside
  · left
    rw [hrest] at hbytes
    rw [hrest, flatMap_shownPieces_of_bytes lib hbytes, map_append]
    exact suffix_append _ _
  · exact .inr hinside

lemma speltInside_iff :
    SpeltInside lib rule name ↔ ∃ front label rest x y, name.labels = front ++ label :: rest ∧
        shownPieces lib label = x ++ y ∧ x ≠ [] ∧ y ≠ [] ∧
        splitBy (· == ch '.') rule.domain = y ++ rest.flatMap (shownPieces lib) := by
  have hjoin : ∀ (b : Bytes) (rest : List Bytes),
      splitBy (· == ch '.') (joinBy (ch '.') (b :: rest.map fun l => lower (lib.showLabel l))) =
        splitBy (· == ch '.') b ++ rest.flatMap (shownPieces lib) := by
    intro b rest
    rw [splitBy_joinBy _ (cons_ne_nil _ _), flatMap_cons, flatMap_map]
    rfl
  constructor
  · rintro ⟨front, label, rest, a, b, hlabels, hshow, hspelt⟩
    refine ⟨front, label, rest, splitBy (· == ch '.') a, splitBy (· == ch '.') b, hlabels, ?_,
      splitBy_ne_nil _ _, splitBy_ne_nil _ _, by rw [hspelt, hjoin]⟩
    rw [shownPieces, hshow]
    exact splitBy_append _ _ rfl
  · rintro ⟨front, label, rest, x, y, hlabels, hpieces, hx, hy, hspelt⟩
    obtain ⟨a, c, b, hshow, hc, -, hb⟩ := exists_of_splitBy_eq_append hpieces hx hy
    rw [eq_of_beq hc] at hshow
    refine ⟨front, label, rest, a, b, hlabels, hshow, splitBy_injective (c := ch '.') ?_⟩
    rw [hjoin, hspelt, hb]

lemma dot_not_mem_pieces (hw : w ∈ splitBy (· == ch '.') rule.domain) : ch '.' ∉ w :=
  not_mem_of_mem_splitBy rfl hw

lemma covered_shown_iff (hcovers : CoversName rule name) :
    CoversPieces rule (name.labels.flatMap (shownPieces lib)) ↔
      ∀ label ∈ name.labels.drop (name.labels.length - (splitBy (· == ch '.') rule.domain).length),
        lower (lib.showLabel label) = lower label := by
  rw [CoversName, CoversPieces] at hcovers
  rw [CoversPieces]
  by_cases hsub : rule.includeSubdomains = true
  · rw [if_pos hsub] at hcovers ⊢
    obtain ⟨pre, hpre⟩ := hcovers
    obtain ⟨front, rest, hlabels, -, hrest⟩ := map_eq_append_iff.mp hpre.symm
    have hdrop : name.labels.drop (name.labels.length -
        (splitBy (· == ch '.') rule.domain).length) = rest := by
      rw [hlabels, ← hrest]
      simp
    rw [hdrop, hlabels]
    exact suffix_shown_iff lib front hrest fun w hw => dot_not_mem_pieces hw
  · rw [if_neg hsub] at hcovers ⊢
    have hdrop : name.labels.drop (name.labels.length -
        (splitBy (· == ch '.') rule.domain).length) = name.labels := by
      rw [← hcovers]
      simp
    rw [hdrop, ← suffix_shown_iff lib [] hcovers fun w hw => dot_not_mem_pieces hw,
      nil_append]
    constructor
    · intro heq
      rw [heq]
    · intro hsuffix
      have hpieces := flatMap_shownPieces_of_dotless lib fun label hlabel =>
        dot_not_mem_pieces (hcovers ▸ mem_map_of_mem hlabel)
      refine (hsuffix.eq_of_length ?_).symm
      rw [hpieces, ← hcovers, length_map, length_map]

lemma apart_shown_iff (hdomain : IsNormalDomain rule.domain) (hcovers : ¬ CoversName rule name) :
    CoversPieces rule (name.labels.flatMap (shownPieces lib)) ↔
      rule.includeSubdomains = true ∧ SpeltInside lib rule name := by
  have hbytes : ∀ w ∈ splitBy (· == ch '.') rule.domain, ∀ b ∈ w, isDomainByte b = true := by
    intro w hw b hb
    obtain ⟨a, c, hsplit, -⟩ := split_of_mem_splitBy hw
    exact hdomain.bytes b (hsplit ▸ by simp [hb])
  rw [CoversName, CoversPieces] at hcovers
  rw [speltInside_iff, CoversPieces]
  by_cases hsub : rule.includeSubdomains = true
  · rw [if_pos hsub] at hcovers ⊢
    constructor
    · intro h
      rcases suffix_shown_of_apart lib hbytes (splitBy_ne_nil _ _) h with hname | hinside
      · exact absurd hname hcovers
      · exact ⟨hsub, hinside⟩
    · rintro ⟨-, front, label, rest, x, y, hlabels, hpieces, -, -, hspelt⟩
      refine ⟨front.flatMap (shownPieces lib) ++ x, ?_⟩
      rw [hspelt, hlabels, flatMap_append, flatMap_cons, hpieces]
      simp only [append_assoc]
  · rw [if_neg hsub] at hcovers ⊢
    refine iff_of_false ?_ fun h => hsub h.1
    intro heq
    rw [flatMap_shownPieces_of_bytes lib (by rwa [heq])] at heq
    exact hcovers heq

/-- **When the text says what the labels say.** -/
theorem covers_text_iff (hdomain : IsNormalDomain rule.domain) :
    (CoversText rule (lower (domainOf lib name)) ↔ CoversName rule name) ↔
      ShowsLabels lib rule name := by
  rw [coversText_iff lib hdomain]
  by_cases hcovers : CoversName rule name
  · rw [covered_shown_iff lib hcovers]
    constructor
    · intro h
      exact ⟨fun _ => h.mpr hcovers, fun hnot => absurd hcovers hnot⟩
    · exact fun h => ⟨fun _ => hcovers, fun _ => h.covered hcovers⟩
  · rw [apart_shown_iff lib hdomain hcovers]
    constructor
    · intro h
      exact ⟨fun hname => absurd hname hcovers,
        fun _ hsub hinside => hcovers (h.mp ⟨hsub, hinside⟩)⟩
    · intro h
      exact iff_of_false (fun hboth => h.apart hcovers hboth.1 hboth.2) hcovers

end Covering

section Blocking

/-- What a plain block rule should do to a question, whatever ruleset it is part
of: for a client that sees the rule, a question it covers label by label is
blocked unless an allow rule applies, and any other question is not blocked by
it. -/
def BlocksByLabels (lib : WireLibrary) (rule : DomainRule) (raw : Bytes)
    (query : WireQuery) : Prop :=
  ∀ (p : Pipeline) (expectedRules : Nat) (policies : UInt16) (lists : List SourceList)
    (around : Surroundings) (clientIp : IpAddr) (transport : Transport) (ctx : ClientContext),
    p.lib = lib → compile expectedRules policies lists = some p.matcher →
    ctx = p.matcher.contextFor clientIp.toCanonical p.active →
    policies &&& ctx.policyBit ≠ 0 →
    (∃ x ∈ entriesOf lists 0, x.1.1 = rule ∧ x.2 &&& ctx.policyBit ≠ 0) →
    ∃ out, p.handle around raw clientIp transport = some out ∧
      (CoversName rule query.name →
        (∃ r, out.verdict = some (.block r)) ∨
          ∃ x ∈ entriesOf lists 0, x.1.1.action = .allow ∧
            Applies (entriesOf lists 0) (p.domainText query)
              (some (toFahQueryType query.queryType)) ctx x.1.1) ∧
      (¬ CoversName rule query.name →
        ∀ i listId, out.verdict = some (.block (.ofDomain i)) →
          ¬ p.matcher.domain.Names i (rule, listId))

variable {lib : WireLibrary} {rule : DomainRule} {raw : Bytes} {request : Message}
variable {query : WireQuery} {rest : List WireQuery}

lemma applies_plain_iff (hopts : rule.opts = none) :
    Applies added name qtype ctx rule ↔
      CoversText rule name ∧ ∃ x ∈ added, sameRule rule x.1.1 = true ∧
        x.2 &&& ctx.policyBit ≠ 0 := by
  constructor
  · exact fun h => ⟨h.covers, h.visible⟩
  · rintro ⟨hcovers, hvisible⟩
    refine ⟨hcovers, ?_, ?_, hvisible, ?_⟩
    · intro raw hraw
      simp [DomainRule.dnsTypes, hopts] at hraw
    · intro hsome
      simp [DomainRule.dnsRewrite, hopts] at hsome
    · intro raw hraw
      simp [DomainRule.client, hopts] at hraw

lemma handle_verdict {p : Pipeline} (hm : compile expectedRules policies lists = some p.matcher)
    (hctx : ctx = p.matcher.contextFor clientIp.toCanonical p.active)
    (hpolicy : policies &&& ctx.policyBit ≠ 0)
    (hask : Asks p.lib raw request query rest) (around : Surroundings) (transport : Transport) :
    ∃ out d, p.handle around raw clientIp transport = some out ∧ out.verdict = some (.ofDomain d) ∧
      d.Sound p.matcher.domain (entriesOf lists 0) (Applies (entriesOf lists 0) (p.domainText query)
          (some (toFahQueryType query.queryType)) ctx) := by
  obtain ⟨d, hlookup, hsound⟩ := (compile_ruleset hm).domain.lookupDomain_verdict hpolicy
    (fits_entriesOf lists 0) (p.domainText query) (some (toFahQueryType query.queryType))
  obtain ⟨out, hout, hverdict, -⟩ := Pipeline.answer_of_compiled hm around request query
    clientIp.toCanonical (if transport = .udp then maxUdpPayload request else 65535)
  refine ⟨out, d, by rw [hask.handle_eq]; exact hout, ?_, hsound⟩
  subst hctx
  rw [hverdict, Pipeline.judge, Matcher.lookupIn]
  simp only [Option.map_some] at hlookup
  rw [hlookup]
  rfl

lemma blocksByLabels_of_agree (hopts : rule.opts = none) (hblock : rule.action = .block)
    (hask : Asks lib raw request query rest)
    (hagree : CoversText rule (lower (domainOf lib query.name)) ↔ CoversName rule query.name) :
    BlocksByLabels lib rule raw query := by
  rintro p expectedRules policies lists around clientIp transport ctx rfl hm hctx hpolicy
    ⟨x, hx, rfl, hmask⟩
  obtain ⟨out, d, hout, hverdict, hsound⟩ :=
    handle_verdict hm hctx hpolicy hask around transport
  refine ⟨out, hout, ?_, ?_⟩
  · intro hcovers
    have happlies : Applies (entriesOf lists 0) (p.domainText query)
        (some (toFahQueryType query.queryType)) ctx x.1.1 :=
      (applies_plain_iff hopts).mpr
        ⟨hagree.mpr hcovers, x, hx, isSame_sameRule.refl _, hmask⟩
    cases d with
    | allow i =>
      obtain ⟨k, key, hdecisive, -⟩ := hsound
      obtain ⟨y, hy, rfl⟩ := hdecisive.mem
      exact .inr ⟨y, hy, hdecisive.kind, hdecisive.takesPart⟩
    | block i => exact .inl ⟨_, hverdict⟩
    | pass => exact absurd happlies (hsound x hx)
  · intro hapart i listId hblocked hnames
    rw [hverdict] at hblocked
    cases d with
    | allow j => cases hblocked
    | pass => cases hblocked
    | block j =>
      cases hblocked
      obtain ⟨-, k, key, hdecisive, hkey⟩ := hsound
      obtain ⟨stored, hstored, hdomain, -, hsub, -⟩ := hnames.record
      obtain ⟨stored', hstored', hdomain', -, hsub', -⟩ := hkey.record
      have heq := Option.some.inj (hstored.symm.trans hstored')
      subst heq
      -- the record of the decisive rule is the record of this rule
      have hcovers := hdecisive.takesPart.covers
      rw [← hdomain', ← hsub', hdomain, hsub] at hcovers
      exact hapart (hagree.mp hcovers)

/-- The ruleset of one plain block rule. -/
def singleList (rule : DomainRule) : List SourceList :=
  [⟨[], plainText rule.domain rule.includeSubdomains, 1⟩]

lemma entriesOf_singleList (hopts : rule.opts = none) (hblock : rule.action = .block)
    (hd : normalizeDomain rule.domain = some rule.domain) :
    entriesOf (singleList rule) 0 = [((rule, 0), 1)] := by
  have hrule : DomainRule.plain rule.domain .block rule.includeSubdomains = rule := by
    rw [DomainRule.plain, ← hopts, ← hblock]
  simp [entriesOf, singleList, domainRules, parseRuleList_plainText _ hd, hrule]

lemma sized_singleList (hopts : rule.opts = none) (hblock : rule.action = .block)
    (hd : normalizeDomain rule.domain = some rule.domain) : Sized (singleList rule) := by
  refine ⟨?_, ?_, by simp [singleList]⟩
  · have hlen := (normalizeDomain_spec hd).length_le
    rw [merged, entriesOf_singleList hopts hblock hd, foldl_cons, foldl_nil, addStep]
    simp only [maxDomainLen] at hlen
    split
    · simp only [TooLarge, mergeStep, map_cons, map_nil, sum_cons, sum_nil,
        maxRecords, indexMask]
      simp
      omega
    · simp [TooLarge, maxRecords, indexMask]
  · have hurls : urlEntriesOf (singleList rule) 0 = [] := by
      simp [urlEntriesOf, singleList, urlRules, parseRuleList_plainText _ hd]
    rw [hurls]
    simp [Url.UrlTooLarge, mergedUrls]

/-- **Which questions a plain block rule treats by their labels.** -/
theorem blocks_by_labels_iff {text : Bytes}
    (hrule : RuleKind.active rule ∈ (parseRuleList text).rules)
    (hblock : rule.action = .block) (hopts : rule.opts = none)
    (hask : Asks lib raw request query rest) :
    BlocksByLabels lib rule raw query ↔ ShowsLabels lib rule query.name := by
  obtain ⟨candidate, hcandidate⟩ := parseRuleList_parsed text _ hrule
  have hdomain := normalizeDomain_spec hcandidate
  have hd := normalizeDomain_idem hcandidate
  rw [← covers_text_iff lib hdomain]
  refine ⟨?_, blocksByLabels_of_agree hopts hblock hask⟩
  intro h
  -- the ruleset of the rule alone shows both directions
  obtain ⟨m, hm, -⟩ := compile_spec 0 1 (sized_singleList hopts hblock hd)
  have hentries := entriesOf_singleList hopts hblock hd
  let p : Pipeline := ⟨lib, m, ⟨[], []⟩, 0, false⟩
  let around : Surroundings := ⟨fun _ => .miss, fun _ => .miss, fun _ => none, true⟩
  let ip : IpAddr := .v4 ⟨0, 0, 0, 0⟩
  have hpolicy : (1 : UInt16) &&& (m.contextFor ip.toCanonical p.active).policyBit ≠ 0 := by
    change (1 : UInt16) &&& PolicyId.default.bit ≠ 0
    decide
  obtain ⟨out, hout, hcovered, hapart⟩ := h p 0 1 (singleList rule) around ip .udp _ rfl hm rfl
    hpolicy ⟨((rule, 0), 1), by rw [hentries]; exact mem_cons_self, rfl, hpolicy⟩
  obtain ⟨out', d, hout', hverdict, hsound⟩ :=
    handle_verdict (p := p) hm rfl hpolicy hask around .udp
  have heq := Option.some.inj (hout.symm.trans hout')
  subst heq
  rw [hentries] at hsound hcovered
  have honly : ∀ {action k key}, Decisive [((rule, 0), 1)]
      (Applies [((rule, 0), 1)] (p.domainText query) (some (toFahQueryType query.queryType))
        (m.contextFor ip.toCanonical p.active)) action k key → key = (rule, 0) := by
    intro action k key hdecisive
    obtain ⟨x, hx, rfl⟩ := hdecisive.mem
    rw [mem_singleton.mp hx]
  have hvisible : ∃ x ∈ [(((rule, 0), 1) : Rules.Entry)], sameRule rule x.1.1 = true ∧
      x.2 &&& (m.contextFor ip.toCanonical p.active).policyBit ≠ 0 :=
    ⟨_, mem_cons_self, isSame_sameRule.refl _, hpolicy⟩
  cases d with
  | allow i =>
    obtain ⟨k, key, hdecisive, -⟩ := hsound
    have hkind := hdecisive.kind
    rw [honly hdecisive, hblock] at hkind
    cases hkind
  | block i =>
    obtain ⟨-, k, key, hdecisive, hnames⟩ := hsound
    have hkey := honly hdecisive
    subst hkey
    refine iff_of_true hdecisive.takesPart.covers ?_
    by_contra hnot
    exact hapart hnot i 0 hverdict hnames
  | pass =>
    refine iff_of_false ?_ ?_
    · intro htext
      exact hsound _ mem_cons_self ((applies_plain_iff hopts).mpr ⟨htext, hvisible⟩)
    · intro hname
      rcases hcovered hname with ⟨r, hr⟩ | ⟨x, hx, hallow, -⟩
      · rw [hverdict] at hr
        cases hr
      · rw [mem_singleton.mp hx, hblock] at hallow
        cases hallow

/-- A rule for a name in its ASCII form. -/
def punycodeRule : DomainRule :=
  .plain (lit "xn--nxasmq6b.example") .block true

def punycodeList : List SourceList :=
  [⟨lit "base", lit "||xn--nxasmq6b.example^", 1⟩]

def punycodeQuery : WireQuery :=
  sampleQuery [lit "xn--nxasmq6b", lit "example"] (by decide)

def punycodePacket : Bytes :=
  [0, 1, 0, 0, 0, 1, 0, 0, 0, 0, 0, 0] ++
    (12 :: lit "xn--nxasmq6b") ++ (7 :: lit "example") ++ [0, 0, 1, 0, 1]

def punycodeLibrary : WireLibrary :=
  sampleLibrary [(punycodePacket, (Message.query 1).addQuery punycodeQuery)]

lemma asks_punycode : Asks punycodeLibrary punycodePacket
    ((Message.query 1).addQuery punycodeQuery) punycodeQuery [] :=
  ⟨by simp only [punycodeLibrary, sampleLibrary, lookup_cons_self], rfl, rfl, rfl⟩

lemma punycodeRule_parsed :
    RuleKind.active punycodeRule ∈ (parseRuleList (lit "||xn--nxasmq6b.example^")).rules := by
  decide +kernel

/-- The wire library decodes the label, so the text of the very name the rule
names is not covered by it, and the question passes. -/
theorem punycode_rule_never_blocks :
    RuleKind.active punycodeRule ∈ (parseRuleList (lit "||xn--nxasmq6b.example^")).rules ∧
      CoversName punycodeRule punycodeQuery.name ∧
      ∃ m, compile 0 1 punycodeList = some m ∧
        ∃ out, (⟨punycodeLibrary, m, ⟨[], []⟩, 10, false⟩ : Pipeline).handle sampleSurroundings
            punycodePacket sampleClient .udp = some out ∧
          out.verdict = some .pass := by
  have hrun : ((compile 0 1 punycodeList).any fun m =>
      (⟨punycodeLibrary, m, ⟨[], []⟩, 10, false⟩ : Pipeline).judge sampleClient punycodeQuery ==
        some .pass) = true := by
    decide +kernel
  have hcovers : CoversPieces punycodeRule (punycodeQuery.name.labels.map lower) := by
    decide +kernel
  obtain ⟨m, hm, hrun⟩ := (Option.any_eq_true _ _).mp hrun
  obtain ⟨out, hout, hverdict, -⟩ := Pipeline.answer_of_compiled
    (p := ⟨punycodeLibrary, m, ⟨[], []⟩, 10, false⟩) hm sampleSurroundings
    ((Message.query 1).addQuery punycodeQuery) punycodeQuery sampleClient.toCanonical
    (maxUdpPayload ((Message.query 1).addQuery punycodeQuery))
  refine ⟨punycodeRule_parsed, hcovers, m, hm, out, ?_, ?_⟩
  · rw [asks_punycode.handle_eq]
    exact hout
  · rw [hverdict]
    exact eq_of_beq hrun

theorem blocks_by_labels_iff_punycode :
    RuleKind.active punycodeRule ∈ (parseRuleList (lit "||xn--nxasmq6b.example^")).rules ∧
      Asks punycodeLibrary punycodePacket ((Message.query 1).addQuery punycodeQuery)
        punycodeQuery [] ∧
      (BlocksByLabels punycodeLibrary punycodeRule punycodePacket punycodeQuery ↔
        ShowsLabels punycodeLibrary punycodeRule punycodeQuery.name) :=
  ⟨punycodeRule_parsed, asks_punycode,
    blocks_by_labels_iff punycodeRule_parsed rfl rfl asks_punycode⟩

end Blocking

end FastAdHunter.Dns
