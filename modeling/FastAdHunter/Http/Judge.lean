import FastAdHunter.Http.Request
import FastAdHunter.Rules.Spelling

/-!
# Judging a request

The verdict on a request is taken on its head, from the destination it claims.
A host can be spelled in more than one way: in other letter case, with a trailing
dot, or with the default port written out. The domain tier folds all three away;
the URL tier matches the text of the URL, where the letter case can matter to a
rule that matches case, and the dot is a character like any other.
-/

namespace FastAdHunter.Http

open Lib Net Rules List

section Judge

variable (lib : HttpLibrary)

/-- The request as the rule engine sees it. The port stays out of the URL when it
is the proxy's own. -/
def modelRequest (scheme : Bytes) (originPort : UInt16) (request : Request)
    (claim : Destination) : HttpRequest where
  url := absoluteUrl scheme request claim.host
    (if claim.port ≠ originPort then some claim.port else none)
  host := requestHost claim.host
  method := request.method
  resourceType := resourceType lib request
  documentHost := documentHost lib request.headers

/-- The verdict on a request; without rules everything passes. -/
def judge (rules : Option Matcher) (active : ActivePolicies) (scheme : Bytes)
    (originPort : UInt16) (request : Request) (claim : Destination) (peer : IpAddr) :
    Option MatchDecision :=
  match rules with
  | none => some .pass
  | some m =>
    m.lookupHttpIn (modelRequest lib scheme originPort request claim) (m.contextFor peer active)

end Judge

/-- Ways to write the host of a request differently. -/
inductive Spelling where
  | letterCase
  | trailingDot
  | explicitPort
  deriving DecidableEq

def Respelled (defaultPort : UInt16) (a b : Bytes) : Spelling → Prop
  | .letterCase =>
    lower (authorityHost a) = lower (authorityHost b) ∧ authorityPort a = authorityPort b
  | .trailingDot =>
    authorityHost b = authorityHost a ++ [ch '.'] ∧ authorityPort a = authorityPort b
  | .explicitPort =>
    authorityHost a = authorityHost b ∧ authorityPort a = none ∧
      authorityPort b = some defaultPort

/-- Two requests that differ at most in how they name their host. -/
structure SameButHost (r s : Request) : Prop where
  method : r.method = s.method
  path : r.uri.pathAndQuery = s.uri.pathAndQuery
  headers : r.headers.remove hostHeader = s.headers.remove hostHeader

/-- A name that a dot can be added to: no address literal, and no dot there yet. -/
structure Undotted (host : Bytes) : Prop where
  plain : ∀ c ∈ host, c ≠ ch '[' ∧ c ≠ ch ']' ∧ c ≠ ch ':'
  last : host.getLast? ≠ some (ch '.')

/-- The rules that cannot see a change of spelling: the domain tier sees none of
them in a name that a dot can be added to, and a URL rule that ignores case does
not see the letter case. -/
def Spelling.Blind (m : Matcher) (host : Bytes) : Spelling → TierRule → Prop
  | .letterCase, .url i => ∀ rec, m.url.records[i]? = some rec → rec.matchCase = false
  | .trailingDot, .url _ => False
  | .trailingDot, .domain _ => Undotted host
  | .explicitPort, .url _ => True
  | _, .domain _ => True

section Hosts

lemma unbracket_lower (host : Bytes) : unbracket (lower host) = lower (unbracket host) := by
  rw [unbracket, unbracket, trimStartMatches_lower (by decide), trimEndMatches_lower (by decide)]

lemma all_isAsciiDigit_lower (s : Bytes) : (lower s).all isAsciiDigit = s.all isAsciiDigit := by
  have hdigit : ∀ b : UInt8, isAsciiDigit (toLower b) = isAsciiDigit b := by decide +kernel
  rw [lower, all_map]
  congr 1
  funext b
  exact hdigit b

lemma withoutPort_lower (authority : Bytes) :
    withoutPort (lower authority) = lower (withoutPort authority) := by
  have hbracket : lower [ch ']'] = [ch ']'] := rfl
  rw [withoutPort, withoutPort, rsplitOnce_lower (by decide)]
  cases rsplitOnce (ch ']') authority with
  | some parts =>
    dsimp only [Option.map_some]
    rw [← unbracket_lower, lower_append, hbracket]
  | none =>
    dsimp only [Option.map_none]
    rw [rsplitOnce_lower (by decide)]
    cases rsplitOnce (ch ':') authority with
    | none => rfl
    | some parts =>
      have hempty : (lower parts.2).isEmpty = parts.2.isEmpty := by cases parts.2 <;> rfl
      have hcolon : (lower parts.1).contains (ch ':') = parts.1.contains (ch ':') := by
        rw [Bool.eq_iff_iff, contains_iff_mem, contains_iff_mem,
          mem_lower_iff (by decide)]
      dsimp only [Option.map_some]
      rw [all_isAsciiDigit_lower, hempty, hcolon]
      split <;> rfl

lemma dropDot_lower (name : Bytes) : dropDot (lower name) = lower (dropDot name) := by
  rw [dropDot, dropDot, stripSuffix_lower (by decide +kernel)]
  cases stripSuffix [ch '.'] name <;> rfl

/-- What the domain tier reads of a host. -/
def judgedName (host : Bytes) : Bytes :=
  lower (dropDot (requestHost (unbracket host)))

variable {host : Bytes}

lemma judgedName_eq_of_lower (h : lower host = lower host') :
    judgedName host = judgedName host' := by
  simp only [judgedName, requestHost, ← dropDot_lower, ← withoutPort_lower, ← unbracket_lower, h]

lemma dropWhile_eq_self {s : Bytes} (h : ∀ b ∈ s, p b = false) :
    s.dropWhile p = s := by
  cases s with
  | nil => rfl
  | cons b s => rw [dropWhile_cons_of_neg (by simp [h b mem_cons_self])]

lemma unbracket_plain (h : ∀ c ∈ host, c ≠ ch '[' ∧ c ≠ ch ']') : unbracket host = host := by
  have hstart : trimStartMatches (ch '[') host = host :=
    dropWhile_eq_self fun b hb => beq_false_of_ne (h b hb).1
  rw [unbracket, hstart, trimEndMatches,
    dropWhile_eq_self fun b hb => beq_false_of_ne (h b (mem_reverse.mp hb)).2,
    reverse_reverse]

lemma rsplitOnce_eq_none (h : c ∉ s) : rsplitOnce c s = none := by
  rw [rsplitOnce, (splitOnce_eq_none_iff c s.reverse).mpr (by simpa using h)]
  rfl

lemma withoutPort_plain (h : ∀ c ∈ host, c ≠ ch ']' ∧ c ≠ ch ':') : withoutPort host = host := by
  rw [withoutPort, rsplitOnce_eq_none fun hmem => (h _ hmem).1 rfl,
    rsplitOnce_eq_none fun hmem => (h _ hmem).2 rfl]

lemma judgedName_plain (h : ∀ c ∈ host, c ≠ ch '[' ∧ c ≠ ch ']' ∧ c ≠ ch ':') :
    judgedName host = lower (dropDot host) := by
  rw [judgedName, requestHost, unbracket_plain fun c hc => ⟨(h c hc).1, (h c hc).2.1⟩,
    withoutPort_plain fun c hc => (h c hc).2]

lemma dropDot_append_dot (host : Bytes) : dropDot (host ++ [ch '.']) = host := by
  rw [dropDot, (stripSuffix_eq_some_iff _ _ host).mpr rfl]
  rfl

lemma dropDot_eq_self (h : host.getLast? ≠ some (ch '.')) : dropDot host = host := by
  rw [dropDot]
  cases hstrip : stripSuffix [ch '.'] host with
  | none => rfl
  | some rest =>
    rw [stripSuffix_eq_some_iff] at hstrip
    rw [hstrip, getLast?_concat] at h
    exact absurd rfl h

lemma Undotted.judgedName_append_dot (h : Undotted host) :
    judgedName (host ++ [ch '.']) = judgedName host := by
  have hplain : ∀ c ∈ host ++ [ch '.'], c ≠ ch '[' ∧ c ≠ ch ']' ∧ c ≠ ch ':' := by
    intro c hc
    rcases mem_append.mp hc with hc | hc
    · exact h.plain c hc
    · rw [mem_singleton.mp hc]
      decide
  rw [judgedName_plain hplain, judgedName_plain h.plain, dropDot_append_dot,
    dropDot_eq_self h.last]

end Hosts

section Same

variable {lib : HttpLibrary} {r s : Request}

lemma SameButHost.get_eq (h : SameButHost r s) (hname : name ≠ hostHeader) :
    r.headers.get name = s.headers.get name := by
  rw [HeaderMap.get, HeaderMap.get, ← HeaderMap.getAll_remove_of_ne (Ne.symm hname) r.headers,
    h.headers, HeaderMap.getAll_remove_of_ne (Ne.symm hname)]

lemma SameButHost.headerString_eq (h : SameButHost r s) (hname : name ≠ hostHeader) :
    headerString lib r.headers name = headerString lib s.headers name := by
  rw [headerString, headerString, h.get_eq hname]

lemma SameButHost.documentHost_eq (h : SameButHost r s) :
    documentHost lib r.headers = documentHost lib s.headers := by
  rw [documentHost, documentHost, h.headerString_eq (by decide)]

lemma SameButHost.pathOrRoot_eq (h : SameButHost r s) : r.uri.pathOrRoot = s.uri.pathOrRoot := by
  rw [Uri.pathOrRoot, Uri.pathOrRoot, h.path]

lemma SameButHost.resourceType_eq (h : SameButHost r s) :
    resourceType lib r = resourceType lib s := by
  simp only [resourceType, fromSecFetchDest, fromAccept, Uri.path, h.pathOrRoot_eq]
  rw [h.headerString_eq (by decide), h.headerString_eq (by decide)]

end Same

section Verdict

variable {lib : HttpLibrary} {r s : Request} {scheme : Bytes} {originPort : UInt16}
variable {allowIpLiterals : Bool} {a b : Bytes} {claim claim' : Destination}

lemma destinationOf_of_authorityOf (ha : authorityOf lib r originPort = .ok a)
    (hclaim : destinationOf lib r originPort allowIpLiterals = .ok claim) :
    claim = ⟨unbracket (authorityHost a), (authorityPort a).getD originPort⟩ := by
  obtain ⟨authority, hauth, hhost, hport⟩ := destinationOf_cases hclaim
  cases claim
  simp_all

lemma sameUpToCase_of_letterCase (hsame : SameButHost r s)
    (hhost : lower claim.host = lower claim'.host) (hport : claim.port = claim'.port) :
    Url.SameUpToCase (modelRequest lib scheme originPort r claim)
      (modelRequest lib scheme originPort s claim') where
  url := by
    simp only [modelRequest, absoluteUrl, lower_append, hhost, hport, hsame.pathOrRoot_eq]
  host := by
    simp only [modelRequest, requestHost, ← withoutPort_lower, hhost]
  method := hsame.method
  resourceType := hsame.resourceType_eq
  documentHost := hsame.documentHost_eq

lemma modelRequest_congr (hsame : SameButHost r s) (claim : Destination) :
    modelRequest lib scheme originPort r claim = modelRequest lib scheme originPort s claim := by
  simp only [modelRequest, absoluteUrl, hsame.method, hsame.pathOrRoot_eq, hsame.resourceType_eq,
    hsame.documentHost_eq]

/-- **An explicit default port changes nothing**, the decisive rule included. -/
theorem judge_default_port (hsame : SameButHost r s)
    (ha : authorityOf lib r originPort = .ok a) (hb : authorityOf lib s originPort = .ok b)
    (hspell : Respelled originPort a b .explicitPort)
    (hclaim : destinationOf lib r originPort allowIpLiterals = .ok claim)
    (hclaim' : destinationOf lib s originPort allowIpLiterals = .ok claim') :
    modelRequest lib scheme originPort r claim = modelRequest lib scheme originPort s claim' := by
  obtain ⟨hhost, hnone, hsome⟩ := hspell
  have heq : claim = claim' := by
    rw [destinationOf_of_authorityOf ha hclaim, destinationOf_of_authorityOf hb hclaim', hhost,
      hnone, hsome]
    rfl
  rw [heq, modelRequest_congr hsame]

lemma judgedName_respelled (hspell : Respelled originPort a b kind) (hblind : kind.Blind m (authorityHost a) (.domain i)) :
    judgedName (authorityHost a) = judgedName (authorityHost b) := by
  cases kind with
  | letterCase => exact judgedName_eq_of_lower hspell.1
  | trailingDot =>
    have hundotted : Undotted (authorityHost a) := hblind
    rw [hspell.1, hundotted.judgedName_append_dot]
  | explicitPort => rw [hspell.1]

lemma appliesAt_of_blind (hsame : SameButHost r s) (ha : authorityOf lib r originPort = .ok a)
    (hb : authorityOf lib s originPort = .ok b) (hspell : Respelled originPort a b kind)
    (hclaim : destinationOf lib r originPort allowIpLiterals = .ok claim)
    (hclaim' : destinationOf lib s originPort allowIpLiterals = .ok claim')
    (hcap : ruleStepCap (modelRequest lib scheme originPort r claim).url.length ≤ lookupStepCap) (hblind : kind.Blind m (authorityHost a) rule) (action : RuleAction) :
    m.AppliesAt (modelRequest lib scheme originPort r claim) ctx action rule ↔
      m.AppliesAt (modelRequest lib scheme originPort s claim') ctx action rule := by
  have heq := destinationOf_of_authorityOf ha hclaim
  have heq' := destinationOf_of_authorityOf hb hclaim'
  cases rule with
  | domain i =>
    apply DomainIndex.takesPart_congr
    have hname := judgedName_respelled hspell hblind
    rwa [heq, heq']
  | url i =>
    rw [Matcher.AppliesAt, Matcher.AppliesAt]
    cases kind with
    | trailingDot => exact hblind.elim
    | explicitPort => rw [judge_default_port hsame ha hb hspell hclaim hclaim']
    | letterCase =>
      have hhost : lower claim.host = lower claim'.host := by
        rw [heq, heq']
        simp only [← unbracket_lower, hspell.1]
      have hport : claim.port = claim'.port := by
        rw [heq, heq', hspell.2]
      have hcase : Url.SameUpToCase (modelRequest lib scheme originPort r claim)
          (modelRequest lib scheme originPort s claim') :=
        sameUpToCase_of_letterCase hsame hhost hport
      cases hrec : m.url.records[i]? with
      | none => simp [Url.UrlIndex.answer, Url.UrlIndex.check, hrec]
      | some rec =>
        rw [Url.answer_eq_of_sameUpToCase hcase hcap hrec (hblind rec hrec)]

/-- **When a host can be respelled without changing the verdict.** As long as both
scans end with room for one more rule, both requests get a verdict, and the
verdicts are of the same kind exactly when the rules that see the change do not
move it; an explicit default port keeps the decisive rule as well. -/
theorem respelled_verdict_iff {expectedRules : Nat} {policies : UInt16}
    {lists : List SourceList} {m : Matcher}
    (hm : compile expectedRules policies lists = some m) (hkeys : m.url.KeysApart)
    (active : ActivePolicies) (peer : IpAddr) (hsame : SameButHost r s)
    (ha : authorityOf lib r originPort = .ok a) (hb : authorityOf lib s originPort = .ok b)
    {kind : Spelling} (hspell : Respelled originPort a b kind)
    (hclaim : destinationOf lib r originPort allowIpLiterals = .ok claim)
    (hclaim' : destinationOf lib s originPort allowIpLiterals = .ok claim')
    (hroom : m.HasRoom (modelRequest lib scheme originPort r claim) (m.contextFor peer active))
    (hroom' : m.HasRoom (modelRequest lib scheme originPort s claim') (m.contextFor peer active)) :
    ∃ d d', judge lib (some m) active scheme originPort r claim peer = some d ∧
      judge lib (some m) active scheme originPort s claim' peer = some d' ∧ (d.kind = d'.kind ↔
        m.Unmoved (kind.Blind m (authorityHost a)) (modelRequest lib scheme originPort r claim)
          (modelRequest lib scheme originPort s claim') (m.contextFor peer active)) ∧
      (kind = .explicitPort → d = d') := by
  obtain ⟨d, hd, hverdict⟩ := hroom.exists_verdict hm hkeys
  obtain ⟨d', hd', hverdict'⟩ := hroom'.exists_verdict hm hkeys
  refine ⟨d, d', hd, hd', ?_, ?_⟩
  · apply kind_eq_iff (fun rule hblind action => ?_) hverdict hverdict'
    exact appliesAt_of_blind hsame ha hb hspell hclaim hclaim' hroom.cap_le hblind action
  · rintro rfl
    rw [judge_default_port hsame ha hb hspell hclaim hclaim', hd'] at hd
    cases hd
    rfl

end Verdict

def sampleLibrary : HttpLibrary where
  validAuthority text := !text.isEmpty && text.all fun b => decide (33 ≤ b ∧ b ≤ 126)
  headerName name := if name.isEmpty then none else some (lower name)
  headerText value := if value.all fun b => decide (32 ≤ b ∧ b ≤ 126) then some value else none
  verbatim := by
    intro value text h
    split at h
    · cases h
      rfl
    · cases h

def pathRule : List SourceList :=
  [⟨lit "base", lit "||ads.com/x", 1⟩]

def requestFor (host : Bytes) : Request :=
  ⟨lit "GET", ⟨none, some (lit "/x")⟩, [(hostHeader, host)]⟩

def noPolicies : ActivePolicies := ⟨[], []⟩

def samplePeer : IpAddr := .v4 ⟨10, 0, 0, 2⟩

def claimFor (host : Bytes) : Destination := ⟨host, 80⟩

/-- A trailing dot gets past a rule with a path. -/
theorem trailing_dot_passes :
    destinationOf sampleLibrary (requestFor (lit "ads.com")) 80 false =
        .ok (claimFor (lit "ads.com")) ∧
      destinationOf sampleLibrary (requestFor (lit "ads.com.")) 80 false =
        .ok (claimFor (lit "ads.com.")) ∧
      ∃ m, compile 0 1 pathRule = some m ∧
        judge sampleLibrary (some m) noPolicies (lit "http") 80 (requestFor (lit "ads.com"))
          (claimFor (lit "ads.com")) samplePeer = some (.block (.ofUrl 0)) ∧
        judge sampleLibrary (some m) noPolicies (lit "http") 80 (requestFor (lit "ads.com."))
          (claimFor (lit "ads.com.")) samplePeer = some .pass := by
  have hrun : ((compile 0 1 pathRule).any fun m =>
      decide (judge sampleLibrary (some m) noPolicies (lit "http") 80 (requestFor (lit "ads.com"))
        (claimFor (lit "ads.com")) samplePeer = some (.block (.ofUrl 0))) &&
      decide (judge sampleLibrary (some m) noPolicies (lit "http") 80 (requestFor (lit "ads.com."))
        (claimFor (lit "ads.com.")) samplePeer = some .pass)) = true := by
    decide +kernel
  obtain ⟨m, hm, hrun⟩ := (Option.any_eq_true _ _).mp hrun
  rw [Bool.and_eq_true, decide_eq_true_eq, decide_eq_true_eq] at hrun
  exact ⟨by decide +kernel, by decide +kernel, m, hm, hrun.1, hrun.2⟩

theorem respelled_verdict_iff_trailing_dot :
    ∃ m, compile 0 1 pathRule = some m ∧ ∃ d d',
      judge sampleLibrary (some m) noPolicies (lit "http") 80 (requestFor (lit "ads.com"))
        (claimFor (lit "ads.com")) samplePeer = some d ∧
      judge sampleLibrary (some m) noPolicies (lit "http") 80 (requestFor (lit "ads.com."))
        (claimFor (lit "ads.com.")) samplePeer = some d' ∧
      (d.kind = d'.kind ↔
        m.Unmoved (Spelling.trailingDot.Blind m (lit "ads.com"))
          (modelRequest sampleLibrary (lit "http") 80 (requestFor (lit "ads.com"))
            (claimFor (lit "ads.com")))
          (modelRequest sampleLibrary (lit "http") 80 (requestFor (lit "ads.com."))
            (claimFor (lit "ads.com."))) (m.contextFor samplePeer noPolicies)) ∧
      (Spelling.trailingDot = .explicitPort → d = d') := by
  have hrun : ((compile 0 1 pathRule).any fun m => decide m.url.KeysApart &&
      [lit "ads.com", lit "ads.com."].all fun host =>
        let request := modelRequest sampleLibrary (lit "http") 80 (requestFor host) (claimFor host)
        decide (ruleStepCap request.url.length ≤
          (m.url.lookup request (m.contextFor samplePeer noPolicies)).2.remaining)) = true := by
    decide +kernel
  obtain ⟨m, hm, hrun⟩ := (Option.any_eq_true _ _).mp hrun
  simp only [all_cons, all_nil, Bool.and_true, Bool.and_eq_true,
    decide_eq_true_eq] at hrun
  obtain ⟨hkeys, hroom, hroom'⟩ := hrun
  have hsame : SameButHost (requestFor (lit "ads.com")) (requestFor (lit "ads.com.")) :=
    ⟨rfl, rfl, by decide +kernel⟩
  have hclaim : ∀ host ∈ [lit "ads.com", lit "ads.com."],
      authorityOf sampleLibrary (requestFor host) 80 = .ok host ∧
        destinationOf sampleLibrary (requestFor host) 80 false = .ok (claimFor host) := by
    decide +kernel
  obtain ⟨ha, hdest⟩ := hclaim (lit "ads.com") (by simp)
  obtain ⟨hb, hdest'⟩ := hclaim (lit "ads.com.") (by simp)
  have hspell : Respelled 80 (lit "ads.com") (lit "ads.com.") .trailingDot :=
    ⟨by decide +kernel, by decide +kernel⟩
  exact ⟨m, hm, respelled_verdict_iff hm hkeys noPolicies samplePeer hsame ha hb hspell hdest
    hdest' hroom hroom'⟩

end FastAdHunter.Http
