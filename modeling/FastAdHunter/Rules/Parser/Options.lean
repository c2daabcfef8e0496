import FastAdHunter.Rules.DomainTier.Lookup
import FastAdHunter.Rules.Parser.Adblock

/-!
# The options in force

The option loop keeps one value for each option, so of a repeated option the
last one is in force, and a `dnstype` or `dnsrewrite` without a value clears what
came before it.
-/

namespace FastAdHunter.Rules.Adblock

open Lib List

/-- What an option token is about. -/
inductive OptionKind where
  | dnstype | dnsrewrite | client | thirdParty | firstParty | document | method | matchCase
  | resource (bit : UInt16)
  | unknown
  deriving DecidableEq

/-- The kind of an option that names no resource type. -/
def namedKind (name : Bytes) : OptionKind :=
  if name = lit "dnstype" then .dnstype
  else if name = lit "dnsrewrite" then .dnsrewrite
  else if name = lit "client" then .client
  else if name = lit "third-party" ∨ name = lit "3p" then .thirdParty
  else if name = lit "first-party" ∨ name = lit "1p" then .firstParty
  else if name = lit "domain" ∨ name = lit "from" then .document
  else if name = lit "method" then .method
  else if name = lit "match-case" then .matchCase
  else .unknown

def OptionToken.kind (token : OptionToken) : OptionKind :=
  (bitForOption token.name).elim (namedKind token.name) .resource

/-- The field a token writes, for the options that keep one value. -/
inductive Slot where
  | dnstype | dnsrewrite | client | party | document | method | matchCase
  deriving DecidableEq

def OptionKind.slot : OptionKind → Option Slot
  | .dnstype => some .dnstype
  | .dnsrewrite => some .dnsrewrite
  | .client => some .client
  | .thirdParty => some .party
  | .firstParty => some .party
  | .document => some .document
  | .method => some .method
  | .matchCase => some .matchCase
  | .resource _ => none
  | .unknown => none

def OptionKind.requestOnly : OptionKind → Bool
  | .dnstype | .dnsrewrite | .client => false
  | _ => true

/-- Whether the loop accepts the token; one that it does not accept makes the
whole line inactive. -/
def OptionToken.usable (token : OptionToken) : Bool :=
  match token.kind with
  | .client => token.value.any fun value => (ClientScope.parse value).isSome
  | .document | .method => token.value.any fun value => !value.isEmpty
  | .unknown => false
  | _ => true

def OptionToken.party (token : OptionToken) : Party :=
  match token.kind with
  | .thirdParty => if token.negated then .first else .third
  | .firstParty => if token.negated then .third else .first
  | _ => .any

def OptionState.accept (st : OptionState) (token : OptionToken) : OptionState :=
  match token.kind with
  | .dnstype => { st with options := { st.options with dnsTypes := token.value } }
  | .dnsrewrite => { st with options := { st.options with dnsRewrite := token.value } }
  | .client => { st with options := { st.options with client := token.value } }
  | .thirdParty | .firstParty =>
    { st with options := { st.options with httpScoped := true, party := token.party } }
  | .document =>
    { st with
      options := { st.options with httpScoped := true, domains := token.value.map lower } }
  | .method =>
    { st with
      options := { st.options with httpScoped := true, methods := token.value.map upper } }
  | .matchCase =>
    { st with options := { st.options with httpScoped := true, matchCase := !token.negated } }
  | .resource bit =>
    { options := { st.options with httpScoped := true }
      positiveTypes := if token.negated then st.positiveTypes else st.positiveTypes ||| bit
      negatedTypes := if token.negated then st.negatedTypes ||| bit else st.negatedTypes
      sawType := true }
  | .unknown => st

/-- What a token does: a refused one makes the line inactive for good. -/
def OptionState.step (st : OptionState) (token : OptionToken) : OptionState :=
  if token.usable then st.accept token
  else
    { st with
      options :=
        { st.options with
          httpScoped := st.options.httpScoped || token.kind.requestOnly
          unsupported := true } }

lemma applyNamed_eq (st : OptionState) (h : bitForOption token.name = none) :
    { st with options := applyNamed st.options token } = st.step token := by
  have hkind : token.kind = namedKind token.name := by rw [OptionToken.kind, h, Option.elim_none]
  rw [namedKind] at hkind
  rw [applyNamed]
  split_ifs at hkind ⊢ with h1 h2 h3 h4 h5 h6 h7 h8
  all_goals
    simp only [OptionState.step, OptionToken.usable, OptionState.accept, OptionToken.party,
      OptionKind.requestOnly, hkind, if_true, Bool.or_false, Bool.or_true]
  · cases token.value with
    | none => rfl
    | some value => cases hscope : (ClientScope.parse value).isSome <;> simp [hscope]
  · rw [if_pos h5]
  · rw [if_neg h5]
  · rw [if_pos h7]
  · rw [if_neg h7]
  · cases token.value with
    | none => rfl
    | some value => cases hempty : value.isEmpty <;> simp [hempty]
  · cases token.value with
    | none => rfl
    | some value => cases hempty : value.isEmpty <;> simp [hempty]
  · rfl

lemma optionStep_eq (st : OptionState) (piece : Bytes) :
    optionStep st piece =
      if (trim piece).isEmpty then none else some (st.step (readToken (trim piece))) := by
  simp only [optionStep]
  split
  · rfl
  · cases hbit : bitForOption (readToken (trim piece)).name with
    | none => exact congrArg some (applyNamed_eq st hbit)
    | some bit =>
      have hkind : (readToken (trim piece)).kind = .resource bit := by
        rw [OptionToken.kind, hbit, Option.elim_some]
      simp [OptionState.step, OptionToken.usable, OptionState.accept, hkind]

section InForce

def tokensOf (raw : Bytes) : List OptionToken :=
  if raw.isEmpty then []
  else (splitBy (· == ch ',') raw).map fun piece => readToken (trim piece)

/-- The token that a field of the options ends up with. -/
def lastOf (slot : Slot) (tokens : List OptionToken) : Option OptionToken :=
  (tokens.filter fun token => token.kind.slot == some slot).getLast?

lemma lastOf_append_singleton (slot : Slot) (tokens : List OptionToken) (token : OptionToken) :
    lastOf slot (tokens ++ [token]) =
      if token.kind.slot = some slot then some token else lastOf slot tokens := by
  rw [lastOf, filter_append]
  by_cases h : token.kind.slot = some slot
  · simp [h]
  · simp [h, lastOf]

variable {tokens : List OptionToken}

lemma mem_of_lastOf (h : lastOf slot tokens = some token) :
    token ∈ tokens ∧ token.kind.slot = some slot := by
  have hmem := mem_of_getLast? h
  simpa using hmem

/-- The start of the loop. -/
def OptionState.initial : OptionState := ⟨.default, 0, 0, false⟩

/-- What the loop has read so far, while every token was usable. -/
structure Tracks (tokens : List OptionToken) (st : OptionState) : Prop where
  dnsTypes : st.options.dnsTypes = (lastOf .dnstype tokens).bind (·.value)
  dnsRewrite : st.options.dnsRewrite = (lastOf .dnsrewrite tokens).bind (·.value)
  client : st.options.client = (lastOf .client tokens).bind (·.value)
  party : st.options.party = (lastOf .party tokens).elim .any (·.party)
  domains : st.options.domains = (lastOf .document tokens).bind (·.value.map lower)
  methods : st.options.methods = (lastOf .method tokens).bind (·.value.map upper)
  matchCase : st.options.matchCase = (lastOf .matchCase tokens).any (!·.negated)
  httpScoped : st.options.httpScoped = tokens.any (·.kind.requestOnly)
  resourceTypes : st.options.resourceTypes = 0
  unsupported : st.options.unsupported = false
  sawType : st.sawType = true ↔ ∃ token ∈ tokens, ∃ bit, token.kind = .resource bit
  positive : ∀ test, st.positiveTypes &&& test ≠ 0 ↔
    ∃ token ∈ tokens, ∃ bit, token.kind = .resource bit ∧ token.negated = false ∧ bit &&& test ≠ 0
  negated : ∀ test, st.negatedTypes &&& test ≠ 0 ↔
    ∃ token ∈ tokens, ∃ bit, token.kind = .resource bit ∧ token.negated = true ∧ bit &&& test ≠ 0

lemma tracks_initial : Tracks [] .initial := by
  constructor <;> simp [OptionState.initial, Options.default, lastOf]

lemma exists_resource_append (tokens : List OptionToken) (token : OptionToken)
    (p : OptionToken → UInt16 → Prop) :
    (∃ t ∈ tokens ++ [token], ∃ bit, t.kind = .resource bit ∧ p t bit) ↔
      (∃ t ∈ tokens, ∃ bit, t.kind = .resource bit ∧ p t bit) ∨
        ∃ bit, token.kind = .resource bit ∧ p token bit := by
  simp only [mem_append, mem_singleton, or_and_right, exists_or, exists_eq_left]

lemma Tracks.accept (h : Tracks tokens st) (husable : token.usable = true) :
    Tracks (tokens ++ [token]) (st.accept token) := by
  cases hk : token.kind with
  | unknown => simp [OptionToken.usable, hk] at husable
  | resource bit =>
    constructor <;>
      simp only [OptionState.accept, hk, lastOf_append_singleton, OptionKind.slot, reduceCtorEq,
        if_false, h.dnsTypes, h.dnsRewrite, h.client, h.party, h.domains, h.methods,
        h.matchCase, h.resourceTypes, h.unsupported]
    · simp [hk, OptionKind.requestOnly]
    · simp [hk]
    · intro test
      rw [exists_resource_append]
      cases hn : token.negated with
      | false => simp [hk, or_and_ne_zero_iff, h.positive]
      | true => simp [h.positive]
    · intro test
      rw [exists_resource_append]
      cases hn : token.negated with
      | false => simp [hk, h.negated]
      | true => simp [hk, or_and_ne_zero_iff, h.negated]
  | _ =>
    constructor <;>
      simp [OptionState.accept, hk, lastOf_append_singleton, OptionKind.slot,
        OptionKind.requestOnly, h.dnsTypes, h.dnsRewrite, h.client, h.party, h.domains,
        h.methods, h.matchCase, h.httpScoped, h.resourceTypes, h.unsupported, h.sawType,
        h.positive, h.negated]

lemma tracks_foldl (h : ∀ token ∈ tokens, token.usable = true) :
    Tracks tokens (tokens.foldl OptionState.step .initial) := by
  induction tokens using List.reverseRecOn with
  | nil => exact tracks_initial
  | append_singleton tokens token ih =>
    have hlast := h token (by simp)
    rw [foldl_append, foldl_cons, foldl_nil, OptionState.step, if_pos hlast]
    exact (ih fun t ht => h t (by simp [ht])).accept hlast

lemma unsupported_foldl (hmem : token ∈ tokens) (hbad : token.usable = false) (st : OptionState) :
    (tokens.foldl OptionState.step st).options.unsupported = true := by
  have hkeep : ∀ (rest : List OptionToken) (st : OptionState), st.options.unsupported = true →
      (rest.foldl OptionState.step st).options.unsupported = true := by
    intro rest
    induction rest with
    | nil => exact fun _ h => h
    | cons t rest ih =>
      intro st hst
      refine ih _ ?_
      rw [OptionState.step, OptionState.accept]
      split
      · split <;> exact hst
      · rfl
  induction tokens generalizing st with
  | nil => cases hmem
  | cons t tokens ih =>
    rcases mem_cons.mp hmem with rfl | hmem
    · refine hkeep tokens _ ?_
      rw [OptionState.step, hbad]
      rfl
    · exact ih hmem _

lemma foldlM_optionStep {pieces : List Bytes} {st st' : OptionState}
    (h : pieces.foldlM optionStep st = some st') :
    st' = (pieces.map fun piece => readToken (trim piece)).foldl OptionState.step st := by
  induction pieces generalizing st with
  | nil => exact (Option.some.inj h).symm
  | cons piece pieces ih =>
    rw [foldlM_cons, optionStep_eq] at h
    split at h
    · cases h
    · exact ih h

/-- **The options in force.** Options that were parsed and are not refused are
those of the last tokens. -/
theorem parseOptions_inForce {raw : Bytes} {options : Options}
    (h : parseOptions raw = some options) (hsupported : options.unsupported = false) :
    (∀ token ∈ tokensOf raw, token.usable = true) ∧
      ∃ st, Tracks (tokensOf raw) st ∧ options = st.finish := by
  rw [parseOptions] at h
  rw [tokensOf]
  split at h
  · next hempty =>
    rw [if_pos hempty]
    refine ⟨by simp, .initial, tracks_initial, ?_⟩
    exact (Option.some.inj h).symm
  · next hempty =>
    rw [if_neg hempty]
    obtain ⟨st, hst, rfl⟩ := Option.map_eq_some_iff.mp h
    have hfold := foldlM_optionStep hst
    have husable : ∀ token ∈ (splitBy (· == ch ',') raw).map fun piece => readToken (trim piece),
        token.usable = true := by
      intro token hmem
      by_contra hbad
      have hun : st.options.unsupported = true := by
        rw [hfold]
        exact unsupported_foldl hmem (Bool.eq_false_iff.mpr hbad) _
      rw [OptionState.finish] at hsupported
      split at hsupported
      · simp [hun] at hsupported
      · rw [hun] at hsupported
        cases hsupported
    refine ⟨husable, st, ?_, rfl⟩
    rw [hfold]
    exact tracks_foldl husable

end InForce

end FastAdHunter.Rules.Adblock
