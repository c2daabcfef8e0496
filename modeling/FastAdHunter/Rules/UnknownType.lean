import FastAdHunter.Rules.UrlTier.Starved

/-!
# Requests whose resource type is not known

A type that the proxy could not determine keeps a type-restricted block out and lets a
type-restricted exception in. So whatever allows a request under some type allows it
without one, and whatever blocks it without a type blocks it under every type.
-/

namespace FastAdHunter.Rules

open Lib Net Url

/-- The same request, judged under a given type. -/
def HttpRequest.under (request : HttpRequest) (kind : ResourceType) : HttpRequest :=
  { request with resourceType := kind }

section Rule

variable {m : UrlIndex} {request : HttpRequest} {ctx : ClientContext} {kind : ResourceType}
variable {i : Nat} {r : Url.Record}

lemma admits_unknown_of_allow (hallow : r.isAllow = true)
    (h : m.admits i r (.new (request.under kind) ctx) = true) :
    m.admits i r (.new (request.under .unknown) ctx) = true := by
  simp only [UrlIndex.admits, Bool.and_eq_true] at h ⊢
  obtain ⟨⟨⟨⟨hvisible, -⟩, hparty⟩, hmethod⟩, hdocument⟩ := h
  refine ⟨⟨⟨⟨hvisible, ?_⟩, hparty⟩, hmethod⟩, hdocument⟩
  simp [Probe.new, HttpRequest.under, bitForRequest, hallow]

lemma admits_of_unknown_block (hblock : r.isAllow = false)
    (h : m.admits i r (.new (request.under .unknown) ctx) = true) :
    m.admits i r (.new (request.under kind) ctx) = true := by
  simp only [UrlIndex.admits, Bool.and_eq_true] at h ⊢
  obtain ⟨⟨⟨⟨hvisible, htyped⟩, hparty⟩, hmethod⟩, hdocument⟩ := h
  have hany : r.types = 0 := by
    simpa [Probe.new, HttpRequest.under, bitForRequest, hblock] using htyped
  refine ⟨⟨⟨⟨hvisible, ?_⟩, hparty⟩, hmethod⟩, hdocument⟩
  simp [hany]

lemma says_unknown_of_allow (h : m.Says (request.under kind) ctx i true) :
    m.Says (request.under .unknown) ctx i true := by
  obtain ⟨r, hr, hallow, hadmits, hmatches⟩ := h
  exact ⟨r, hr, hallow, admits_unknown_of_allow hallow hadmits, hmatches⟩

lemma says_of_unknown_block (h : m.Says (request.under .unknown) ctx i false) :
    m.Says (request.under kind) ctx i false := by
  obtain ⟨r, hr, hblock, hadmits, hmatches⟩ := h
  exact ⟨r, hr, hblock, admits_of_unknown_block hblock hadmits, hmatches⟩

end Rule

section Tier

variable {m : UrlIndex} {request : HttpRequest} {ctx : ClientContext}

/-- What a finished lookup says about the rules it comes to. -/
lemma lookup_settled (h : ¬ RanOut (m.lookup request ctx).2) :
    match (m.lookup request ctx).1 with
    | .allow i => i ∈ m.candidates request.url ∧ m.Says request ctx i true
    | .block _ => (∀ k ∈ m.candidates request.url, ¬ m.Says request ctx k true) ∧
        ∃ k ∈ m.candidates request.url, m.Says request ctx k false
    | .pass => ∀ k ∈ m.candidates request.url, ∀ allow, ¬ m.Says request ctx k allow := by
  have hspent : (m.lookup request ctx).2 =
      spent (m.scan (.new request ctx) ⟨none, ⟨lookupStepCap, 0, false⟩⟩) := by
    rw [UrlIndex.lookup, Budget.new]
    cases m.scan (.new request ctx) ⟨none, ⟨lookupStepCap, 0, false⟩⟩ <;> rfl
  have hverdict : (m.lookup request ctx).1 = m.lookupWithin lookupStepCap request ctx := by
    rw [UrlIndex.lookup, UrlIndex.lookupWithin, Budget.new]
    cases m.scan (.new request ctx) ⟨none, ⟨lookupStepCap, 0, false⟩⟩ <;> rfl
  have hsettled := lookupWithin_settled (hspent ▸ h)
  rw [hverdict]
  cases hlookup : m.lookupWithin lookupStepCap request ctx with
  | allow i | pass =>
    rw [hlookup] at hsettled
    exact hsettled
  | block i =>
    rw [hlookup] at hsettled
    refine ⟨hsettled.1, i, List.mem_of_find?_eq_some hsettled.2, ?_⟩
    exact (fullAnswer_iff i false).mp (by simpa using List.find?_some hsettled.2)

end Tier

/-- **An unknown type only ever under-blocks.** Whatever the ruleset, the request and the
client: if no lookup runs out and the request is blocked while its type is unknown, then it
is blocked under every type. -/
theorem blocked_of_unknown_blocked (m : Matcher) (request : HttpRequest) (ctx : ClientContext)
    (hlasts : ∀ kind, ¬ RanOut (m.url.lookup (request.under kind) ctx).2)
    (hblocked : ∃ rule, m.lookupHttpIn (request.under .unknown) ctx = some (.block rule))
    (kind : ResourceType) :
    ∃ rule, m.lookupHttpIn (request.under kind) ctx = some (.block rule) := by
  obtain ⟨rule, hblocked⟩ := hblocked
  have hunknown := lookup_settled (hlasts .unknown)
  have hkind := lookup_settled (hlasts kind)
  -- both lookups come to the same rules, and both tiers see the same host
  have hcandidates : m.url.candidates (request.under kind).url =
      m.url.candidates (request.under .unknown).url := rfl
  have hhost : m.domain.lookupDomain (request.under kind).host none ctx =
      m.domain.lookupDomain (request.under .unknown).host none ctx := rfl
  rw [Matcher.lookupHttpIn] at hblocked ⊢
  rw [hhost]
  have hnone : ∀ k ∈ m.url.candidates (request.under .unknown).url,
      ¬ m.url.Says (request.under .unknown) ctx k true := by
    intro k hk
    cases hfirst : (m.url.lookup (request.under .unknown) ctx).1 with
    | allow i =>
      rw [hfirst] at hblocked
      cases hblocked
    | block i =>
      rw [hfirst] at hunknown
      exact hunknown.1 k hk
    | pass =>
      rw [hfirst] at hunknown
      exact hunknown k hk true
  cases hsecond : (m.url.lookup (request.under kind) ctx).1 with
  | allow i =>
    rw [hsecond] at hkind
    exact absurd (says_unknown_of_allow hkind.2) (hnone i hkind.1)
  | block i =>
    cases hdomain : m.domain.lookupDomain (request.under .unknown).host none ctx with
    | none =>
      rw [hdomain] at hblocked
      split at hblocked <;> cases hblocked
    | some decision =>
      rw [hdomain] at hblocked
      cases decision with
      | allow j => split at hblocked <;> cases hblocked
      | block j | pass => exact ⟨_, rfl⟩
  | pass =>
    rw [hsecond] at hkind
    cases hfirst : (m.url.lookup (request.under .unknown) ctx).1 with
    | allow i =>
      rw [hfirst] at hblocked
      cases hblocked
    | block i =>
      rw [hfirst] at hunknown
      obtain ⟨-, k, hk, hsays⟩ := hunknown
      exact absurd (says_of_unknown_block hsays) (hkind k hk false)
    | pass =>
      rw [hfirst] at hblocked
      exact ⟨rule, hblocked⟩

/-- A block without a type, with an exception for scripts of another path. -/
theorem page_blocked_under_every_type :
    ∃ m, compile 0 1 [⟨lit "base", lit "||ads.com/x\n@@||ads.com/y$script", 1⟩] = some m ∧
      ∀ kind, ∃ rule, m.lookupHttpIn (pageRequest.under kind) anyClient = some (.block rule) := by
  have hsome : (compile 0 1 [⟨lit "base", lit "||ads.com/x\n@@||ads.com/y$script", 1⟩]).any
      (fun m => decide (m.lookupHttpIn (pageRequest.under .unknown) anyClient =
          some (.block (.ofUrl 0)) ∧
        m.url.enough pageRequest.url ≤ lookupStepCap)) = true := by
    decide +kernel
  obtain ⟨m, hm, hfacts⟩ := (Option.any_eq_true _ _).mp hsome
  obtain ⟨hblock, henough⟩ := of_decide_eq_true hfacts
  refine ⟨m, hm, blocked_of_unknown_blocked m pageRequest anyClient (fun kind hout => ?_)
    ⟨_, hblock⟩⟩
  have hlasts := @not_ranOut_of_enough _ (pageRequest.under kind) anyClient _ henough
  rw [UrlIndex.lookup, Budget.new] at hout
  revert hout hlasts
  cases m.url.scan (.new (pageRequest.under kind) anyClient) ⟨none, ⟨lookupStepCap, 0, false⟩⟩
  all_goals exact fun hout hlasts => hlasts hout

end FastAdHunter.Rules
