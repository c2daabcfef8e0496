import FastAdHunter.Lib.Folding
import FastAdHunter.Rules.Verdict

/-!
# What a change of spelling does to a verdict

Two requests can be the same to a rule although their texts differ. The domain
tier folds letter case and one trailing dot away. The URL tier reads the text of
the URL: a rule that ignores case cannot see the letter case, every other
difference is a difference of the text.

A verdict is then a matter of the rules that do see the difference: it stays when
the others already settle it, or when those that see it agree.
-/

namespace FastAdHunter.Rules

open Lib Wildcard

lemma isSeparator_toLower : ∀ b : UInt8, isSeparator (toLower b) = isSeparator b := by
  decide +kernel

lemma elemOf_toLower (h : elemOf false pb = .one ok orEnd) (b : UInt8) : ok (toLower b) = ok b := by
  rw [elemOf] at h
  split at h
  · cases h
  · split at h
    · cases h
      exact isSeparator_toLower b
    · cases h
      simp [byteMatches]

lemma matchesAt_lower (pattern : Bytes) (endAnchored : Bool) (s : Bytes) :
    MatchesAt pattern endAnchored false (lower s) ↔ MatchesAt pattern endAnchored false s := by
  apply matches_map
  intro ok orEnd hmem
  obtain ⟨pb, -, hpb⟩ := List.mem_map.mp hmem
  exact elemOf_toLower hpb

lemma getLast?_lower_dot (s : Bytes) :
    (lower s).getLast? = some (ch '.') ↔ s.getLast? = some (ch '.') := by
  rw [lower, List.getLast?_map, Option.map_eq_some_iff]
  constructor
  · rintro ⟨b, hb, hdot⟩
    rw [hb, (toLower_eq_dot_iff b).mp hdot]
  · intro h
    exact ⟨ch '.', h, (toLower_eq_dot_iff _).mpr rfl⟩

lemma startsAt_lower_iff :
    StartsAt anchor (lower url) hostStart hostEnd start ↔
      ∃ start', start = lower start' ∧ StartsAt anchor url hostStart hostEnd start' := by
  -- the bytes before the start satisfy the anchor in either case of the letters
  have hfront : ∀ front start', StartsAt anchor (lower front ++ lower start') hostStart hostEnd
      (lower start') ↔ StartsAt anchor (front ++ start') hostStart hostEnd start' := by
    intro front start'
    simp only [StartsAt, List.append_cancel_right_eq, exists_eq_left']
    cases anchor with
    | start => exact List.map_eq_nil_iff
    | domain => simp only [length_lower, getLast?_lower_dot]
    | anywhere => exact Iff.rfl
  constructor
  · rintro ⟨front, hurl, hstart⟩
    obtain ⟨front', start', rfl, rfl, rfl⟩ := List.map_eq_append_iff.mp hurl
    exact ⟨start', rfl, (hfront front' start').mp ⟨_, rfl, hstart⟩⟩
  · rintro ⟨start', rfl, front, rfl, hstart⟩
    rw [lower_append]
    exact (hfront front start').mpr ⟨front, rfl, hstart⟩

lemma patternMatches_lower (url : Bytes) :
    PatternMatches anchor pattern (lower url) hostStart hostEnd endAnchored false ↔
      PatternMatches anchor pattern url hostStart hostEnd endAnchored false := by
  constructor
  · rintro ⟨start, hstart, hmatch⟩
    obtain ⟨start', rfl, hstart'⟩ := startsAt_lower_iff.mp hstart
    exact ⟨start', hstart', (matchesAt_lower _ _ _).mp hmatch⟩
  · rintro ⟨start, hstart, hmatch⟩
    exact ⟨lower start, startsAt_lower_iff.mpr ⟨start, rfl, hstart⟩,
      (matchesAt_lower _ _ _).mpr hmatch⟩

lemma hostSpan_lower (url : Bytes) : hostSpan (lower url) = hostSpan url := by
  have hscheme : ∀ c ∈ lit "://", Caseless c := by decide +kernel
  have hend : ∀ b : UInt8, (toLower b == ch '/' || toLower b == ch '?' || toLower b == ch '#') =
      (b == ch '/' || b == ch '?' || b == ch '#') := by
    intro b
    rw [toLower_beq (by decide), toLower_beq (by decide), toLower_beq (by decide)]
  have hdrop : ∀ n, (lower url).drop n = lower (url.drop n) := fun n => List.map_drop.symm
  simp only [hostSpan, findStr_lower hscheme, hdrop, findByte_lower (f := fun b => b == ch '/' || b == ch '?' || b == ch '#') hend, length_lower]

namespace Url

section LetterCase

lemma registrable_lower (host : Bytes) : registrable (lower host) = lower (registrable host) := by
  have hdot : ∀ b : UInt8, (toLower b == ch '.') = (b == ch '.') := toLower_beq (by decide)
  rw [registrable, registrable, splitBy_lower hdot, ← List.map_reverse]
  rcases (splitBy (fun b => b == ch '.') host).reverse with
    - | ⟨last, - | ⟨second, - | ⟨third, rest⟩⟩⟩
  · rfl
  · rfl
  · rfl
  · simp only [lower_append]
    rfl

/-- Two requests that differ at most in the letter case of their URL and host. -/
structure SameUpToCase (r s : HttpRequest) : Prop where
  url : lower r.url = lower s.url
  host : lower r.host = lower s.host
  method : r.method = s.method
  resourceType : r.resourceType = s.resourceType
  documentHost : r.documentHost = s.documentHost

variable {m : UrlIndex} {r s : HttpRequest} {ctx : ClientContext}

lemma SameUpToCase.isThirdParty_eq (h : SameUpToCase r s) : isThirdParty r = isThirdParty s := by
  rw [isThirdParty, isThirdParty, h.documentHost]
  congr 1
  funext document
  have hhost : lower (registrable r.host) = lower (registrable s.host) := by
    rw [← registrable_lower, h.host, registrable_lower]
  rw [Bool.eq_iff_iff]
  simp only [Bool.not_eq_true', ← Bool.not_eq_true, eqIgnoreAsciiCase_iff, hhost]

lemma SameUpToCase.admits_eq (h : SameUpToCase r s) (i : Nat) (rec : Record) :
    m.admits i rec (.new r ctx) = m.admits i rec (.new s ctx) := by
  simp only [UrlIndex.admits, Probe.new, h.isThirdParty_eq, h.method, h.resourceType,
    h.documentHost]

/-- **A rule that ignores case answers alike** whatever the letter case. -/
theorem answer_eq_of_sameUpToCase (h : SameUpToCase r s)
    (hcap : ruleStepCap r.url.length ≤ lookupStepCap)
    (hrec : m.records[i]? = some rec) (hcase : rec.matchCase = false) :
    m.answer r ctx i = m.answer s ctx i := by
  have hlen : r.url.length = s.url.length := by
    rw [← length_lower r.url, h.url, length_lower]
  have hpattern : (m.checkPattern rec (.new r ctx) .new).1 =
      (m.checkPattern rec (.new s ctx) .new).1 := by
    rw [Bool.eq_iff_iff, checkPattern_iff rec .new hcap,
      checkPattern_iff rec .new (hlen ▸ hcap), hcase, ← patternMatches_lower r.url,
      ← patternMatches_lower s.url, ← hostSpan_lower r.url, ← hostSpan_lower s.url, h.url]
  simp only [UrlIndex.answer, UrlIndex.check, hrec, h.admits_eq, hpattern]
  split <;> rfl

end LetterCase

end Url

section Kinds

def MatchDecision.kind : MatchDecision → Option RuleAction
  | .allow _ => some .allow
  | .block _ => some .block
  | .pass => none

inductive TierRule where
  | url (index : Nat)
  | domain (index : Nat)

def Matcher.AppliesAt (m : Matcher) (request : HttpRequest) (ctx : ClientContext)
    (action : RuleAction) : TierRule → Prop
  | .url i => m.url.answer request ctx i = some (decide (action = .allow))
  | .domain i => m.domain.TakesPart request.host none ctx action i

variable {m : Matcher} {r s : HttpRequest} {ctx : ClientContext}

lemma Matcher.ruleApplies_iff :
    m.RuleApplies r ctx action ↔ ∃ rule, m.AppliesAt r ctx action rule := by
  constructor
  · rintro (⟨i, hi⟩ | ⟨i, hi⟩)
    · exact ⟨.url i, hi⟩
    · exact ⟨.domain i, hi⟩
  · rintro ⟨i | i, hi⟩
    · exact .inl ⟨i, hi⟩
    · exact .inr ⟨i, hi⟩

lemma DomainIndex.takesPart_congr {d : DomainIndex}
    (h : lower (dropDot name) = lower (dropDot name')) (qbit : Option UInt32)
    (action : RuleAction) (i : Nat) :
    d.TakesPart name qbit ctx action i ↔ d.TakesPart name' qbit ctx action i := by
  rw [DomainIndex.TakesPart, DomainIndex.TakesPart, h]

def Matcher.AppliesAmong (m : Matcher) (among : TierRule → Prop) (request : HttpRequest)
    (ctx : ClientContext) (action : RuleAction) : Prop :=
  ∃ rule, among rule ∧ m.AppliesAt request ctx action rule

/-- The rules that can tell two requests apart do not move the verdict: a rule
blind to the difference allows, or the others allow both or neither; and unless
something allows, the same holds of blocking. -/
structure Matcher.Unmoved (m : Matcher) (blind : TierRule → Prop) (r s : HttpRequest)
    (ctx : ClientContext) : Prop where
  allow : m.AppliesAmong blind r ctx .allow ∨
    (m.AppliesAmong (¬ blind ·) r ctx .allow ↔ m.AppliesAmong (¬ blind ·) s ctx .allow)
  block : m.AppliesAmong blind r ctx .allow ∨ m.AppliesAmong (¬ blind ·) r ctx .allow ∨
    m.AppliesAmong blind r ctx .block ∨
    (m.AppliesAmong (¬ blind ·) r ctx .block ↔ m.AppliesAmong (¬ blind ·) s ctx .block)

lemma Matcher.ruleApplies_iff_among (blind : TierRule → Prop) (action : RuleAction) :
    m.RuleApplies r ctx action ↔
      m.AppliesAmong blind r ctx action ∨ m.AppliesAmong (¬ blind ·) r ctx action := by
  rw [Matcher.ruleApplies_iff]
  constructor
  · rintro ⟨rule, hrule⟩
    by_cases hblind : blind rule
    · exact .inl ⟨rule, hblind, hrule⟩
    · exact .inr ⟨rule, hblind, hrule⟩
  · rintro (⟨rule, -, hrule⟩ | ⟨rule, -, hrule⟩)
    · exact ⟨rule, hrule⟩
    · exact ⟨rule, hrule⟩

lemma kind_eq_of_requestVerdict (h : m.RequestVerdict r ctx d) :
    (d.kind = some .allow ↔ m.RuleApplies r ctx .allow) ∧
      (d.kind = some .block ↔ ¬ m.RuleApplies r ctx .allow ∧ m.RuleApplies r ctx .block) := by
  cases d with
  | allow rule =>
    have hallow : m.RuleApplies r ctx .allow := h
    simp [MatchDecision.kind, hallow]
  | block rule =>
    obtain ⟨hno, hblock⟩ := h
    simp [MatchDecision.kind, hno, hblock]
  | pass => simp [MatchDecision.kind, h .allow, h .block]

lemma kind_ext (k k' : Option RuleAction) :
    k = k' ↔ (k = some .allow ↔ k' = some .allow) ∧ (k = some .block ↔ k' = some .block) := by
  rcases k with - | ⟨- | -⟩ <;> rcases k' with - | ⟨- | -⟩ <;> simp

lemma settled_iff :
    ((allow ∨ see ↔ allow ∨ see') ∧
        (¬ (allow ∨ see) ∧ (block ∨ sees) ↔ ¬ (allow ∨ see') ∧ (block ∨ sees'))) ↔
      (allow ∨ (see ↔ see')) ∧ (allow ∨ see ∨ block ∨ (sees ↔ sees')) := by
  grind

/-- **When two requests get verdicts of the same kind**, for rules that are blind
to the difference between them and rules that are not. -/
theorem kind_eq_iff (hblind : ∀ rule, blind rule → ∀ action,
      (m.AppliesAt r ctx action rule ↔ m.AppliesAt s ctx action rule))
    (hd : m.RequestVerdict r ctx d) (hd' : m.RequestVerdict s ctx d') :
    d.kind = d'.kind ↔ m.Unmoved blind r s ctx := by
  have hsame : ∀ action, m.AppliesAmong blind s ctx action ↔ m.AppliesAmong blind r ctx action :=
    fun action => exists_congr fun rule => and_congr_right fun h => (hblind rule h action).symm
  obtain ⟨hallow, hblock⟩ := kind_eq_of_requestVerdict hd
  obtain ⟨hallow', hblock'⟩ := kind_eq_of_requestVerdict hd'
  rw [kind_ext, hallow, hblock, hallow', hblock']
  simp only [Matcher.ruleApplies_iff_among blind, hsame]
  rw [settled_iff]
  exact ⟨fun h => ⟨h.1, h.2⟩, fun h => ⟨h.allow, h.block⟩⟩

end Kinds

section Room

/-- The scan for a request ends with room for one more rule. -/
def Matcher.HasRoom (m : Matcher) (request : HttpRequest) (ctx : ClientContext) : Prop :=
  ruleStepCap request.url.length ≤ (m.url.lookup request ctx).2.remaining

variable {m : Matcher} {request : HttpRequest} {ctx : ClientContext}

lemma Matcher.HasRoom.cap_le (h : m.HasRoom request ctx) :
    ruleStepCap request.url.length ≤ lookupStepCap :=
  h.trans (Url.lookup_remaining_le m.url request ctx)

lemma Matcher.HasRoom.exists_verdict (h : m.HasRoom request ctx)
    (hm : compile expectedRules policies lists = some m) (hkeys : m.url.KeysApart) :
    ∃ d, m.lookupHttpIn request ctx = some d ∧ m.RequestVerdict request ctx d := by
  have hurl : Url.Verdict m.url request ctx (m.url.lookup request ctx).1 :=
    Url.UrlIndex.lookup_complete (fun i r hr => reaches_of_compile hm hkeys hr) h
  obtain ⟨d, hlookup, hdomain⟩ :=
    (compile_ruleset hm).domain.lookupDomain_complete request.host none ctx
  exact requestVerdict_of_tiers hurl hlookup hdomain

end Room

end FastAdHunter.Rules
