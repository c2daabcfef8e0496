import FastAdHunter.Rules.Parser.Options
import FastAdHunter.Rules.UrlTier.Basic

/-!
# What the options of a line say

The tokens of a line read by what they say (`OptionToken.Holds`), against the
options in force, which are what the compiled rule goes by (`Meets`). A token is
lost when a later one overwrites it, when its `~` is not read, when its value is
dropped, or when it restricts questions on a line that becomes a URL rule.
-/

namespace FastAdHunter.Rules.Adblock

open Lib List

lemma and_twoPow_ne_zero_iff (a : BitVec w) (hi : i < w) :
    a &&& BitVec.twoPow w i ≠ 0#w ↔ a.getLsbD i = true := by
  rw [BitVec.and_twoPow]
  cases h : a.getLsbD i with
  | false => simp
  | true =>
    simp only [iff_true]
    intro hzero
    have := congrArg (fun v => v.getLsbD i) hzero
    simp [hi] at this

lemma test16_iff (a : UInt16) (hi : i < 16) :
    a &&& 1 <<< UInt16.ofNat i ≠ 0 ↔ a.toBitVec.getLsbD i = true := by
  have hbit : ∀ k < 16, (1 <<< UInt16.ofNat k : UInt16).toBitVec = BitVec.twoPow 16 k := by
    decide
  rw [← and_twoPow_ne_zero_iff _ hi, ← hbit i hi, Ne, Ne, ← UInt16.toBitVec_inj]
  rfl

lemma test32_iff (a : UInt32) (hi : i < 32) :
    a &&& 1 <<< UInt32.ofNat i ≠ 0 ↔ a.toBitVec.getLsbD i = true := by
  have hbit : ∀ k < 32, (1 <<< UInt32.ofNat k : UInt32).toBitVec = BitVec.twoPow 32 k := by
    decide
  rw [← and_twoPow_ne_zero_iff _ hi, ← hbit i hi, Ne, Ne, ← UInt32.toBitVec_inj]
  rfl

lemma and_not_test16 (a b : UInt16) (hi : i < 16) :
    (a &&& ~~~b) &&& 1 <<< UInt16.ofNat i ≠ 0 ↔
      a &&& 1 <<< UInt16.ofNat i ≠ 0 ∧ b &&& 1 <<< UInt16.ofNat i = 0 := by
  have hb := test16_iff b hi
  rw [test16_iff _ hi, test16_iff _ hi, ← not_ne_iff (b := (0 : UInt16)), hb]
  simp [hi]

lemma and_not_test32 (a b : UInt32) (hi : i < 32) :
    (a &&& ~~~b) &&& 1 <<< UInt32.ofNat i ≠ 0 ↔
      a &&& 1 <<< UInt32.ofNat i ≠ 0 ∧ b &&& 1 <<< UInt32.ofNat i = 0 := by
  have hb := test32_iff b hi
  rw [test32_iff _ hi, test32_iff _ hi, ← not_ne_iff (b := (0 : UInt32)), hb]
  simp [hi]

lemma or_and_ne_zero_iff32 (a b bit : UInt32) :
    (a ||| b) &&& bit ≠ 0 ↔ a &&& bit ≠ 0 ∨ b &&& bit ≠ 0 := by
  have h : (a ||| b) &&& bit = (a &&& bit) ||| (b &&& bit) := by
    apply UInt32.toNat_inj.mp
    simp [Nat.and_or_distrib_right]
  rw [h, Ne, UInt32.or_eq_zero_iff, not_and_or]

section Meaning

/-- What a rule can be asked about: a question, or a request. -/
inductive Occasion where
  | question (name : Bytes) (qtype : QueryType)
  | request (request : HttpRequest)

def Occasion.name : Occasion → Bytes
  | .question name _ => name
  | .request r => r.host

def Occasion.qtype : Occasion → Option QueryType
  | .question _ qtype => some qtype
  | .request _ => none

/-- One entry of a list such as `a|~b`. -/
structure ListEntry where
  negated : Bool
  text : Bytes
  deriving DecidableEq

def readEntry (piece : Bytes) : ListEntry :=
  match stripPrefix [ch '~'] piece with
  | some rest => ⟨true, rest⟩
  | none => ⟨false, piece⟩

/-- The entries of a `domain` or `method` value. -/
def listEntries (raw : Bytes) : List ListEntry :=
  ((splitBy (· == ch '|') raw).map readEntry).filter fun entry => !entry.text.isEmpty

/-- An entry of a `dnstype` value, where blanks around a name do not count. -/
def readDnstype (piece : Bytes) : ListEntry :=
  match stripPrefix [ch '~'] (trim piece) with
  | some rest => ⟨true, trim rest⟩
  | none => ⟨false, trim piece⟩

def dnstypeEntries (raw : Bytes) : List ListEntry :=
  ((splitBy (fun b => b == ch '|' || b == ch ',') raw).map readDnstype).filter fun entry =>
    !entry.text.isEmpty

/-- What a list says: nothing that it excludes and, if it names anything to
include, one of those. A list of no entries is satisfied by nothing. -/
structure Chosen (entries : List ListEntry) (hit : Bytes → Bool) : Prop where
  nonempty : entries ≠ []
  notExcluded : ∀ entry ∈ entries, entry.negated = true → hit entry.text = false
  included : (∀ entry ∈ entries, entry.negated = true) ∨
    ∃ entry ∈ entries, entry.negated = false ∧ hit entry.text = true

/-- Whether a name is the name of this record type. -/
def namesType (qtype : QueryType) (name : Bytes) : Bool :=
  qtype.position.any fun i => rrtypes.findIdx? (eqIgnoreAsciiCase name) == some i

/-- A list that includes only record types the engine has no bit for, and
excludes one it has. -/
def unknownWhitelist (raw : Bytes) : Bool :=
  (dnstypeEntries raw).any (!·.negated) &&
    (dnstypeEntries raw).all (fun entry => entry.negated || rrtypeBit entry.text == 0) &&
    (dnstypeEntries raw).any fun entry => entry.negated && rrtypeBit entry.text != 0

lemma rrtypeBit_and_qtypeBit (name : Bytes) (qtype : QueryType) :
    rrtypeBit name &&& qtypeBit qtype ≠ 0 ↔ namesType qtype name = true := by
  have hbits : ∀ i < 15, ∀ j < 15,
      ((1 : UInt32) <<< UInt32.ofNat i &&& 1 <<< UInt32.ofNat j ≠ 0 ↔ i = j) := by
    decide
  have hlt : ∀ {i}, qtype.position = some i → i < 15 := by
    intro i h
    cases qtype <;> cases h <;> decide
  rw [rrtypeBit, qtypeBit, namesType]
  cases hname : rrtypes.findIdx? (eqIgnoreAsciiCase name) with
  | none => cases qtype.position <;> simp
  | some i =>
    have hi : i < 15 := (findIdx?_eq_some_iff_getElem.mp hname).1
    cases hq : qtype.position with
    | none => simp
    | some j => simpa using hbits i hi j (hlt hq)

/-- The entries whose names have a bit in common with a mask. -/
def Reached (entries : List ListEntry) (negated : Bool) (test : UInt32) : Prop :=
  ∃ entry ∈ entries, entry.negated = negated ∧ rrtypeBit entry.text &&& test ≠ 0

lemma foldl_dnstypeStep (pieces : List Bytes) (test : UInt32) (acc : UInt32 × UInt32) :
    ((pieces.foldl dnstypeStep acc).1 &&& test ≠ 0 ↔
        acc.1 &&& test ≠ 0 ∨ Reached (pieces.map readDnstype) false test) ∧
      ((pieces.foldl dnstypeStep acc).2 &&& test ≠ 0 ↔
        acc.2 &&& test ≠ 0 ∨ Reached (pieces.map readDnstype) true test) := by
  induction pieces generalizing acc with
  | nil => simp [Reached]
  | cons piece pieces ih =>
    have hnil : rrtypeBit [] = 0 := by decide
    obtain ⟨ihp, ihn⟩ := ih (dnstypeStep acc piece)
    rw [foldl_cons, ihp, ihn]
    simp only [Reached, map_cons, dnstypeStep, readDnstype]
    cases stripPrefix [ch '~'] (trim piece) with
    | some rest => simp [or_and_ne_zero_iff32, or_assoc]
    | none =>
      cases hempty : (trim piece).isEmpty with
      | true => simp [List.isEmpty_iff.mp hempty, hnil]
      | false => simp [or_and_ne_zero_iff32, or_assoc]

lemma reached_filter (entries : List ListEntry) (negated : Bool) (test : UInt32) :
    Reached (entries.filter fun entry => !entry.text.isEmpty) negated test ↔
      Reached entries negated test := by
  have hnil : rrtypeBit [] = 0 := by decide
  constructor
  · rintro ⟨entry, hmem, h⟩
    exact ⟨entry, (mem_filter.mp hmem).1, h⟩
  · rintro ⟨entry, hmem, hneg, hbit⟩
    refine ⟨entry, mem_filter.mpr ⟨hmem, ?_⟩, hneg, hbit⟩
    cases htext : entry.text with
    | nil => simp [htext, hnil] at hbit
    | cons b text => rfl

lemma ne_zero_iff_reached (h : ∀ test, mask &&& test ≠ 0 ↔ Reached entries negated test) :
    mask ≠ 0 ↔ ∃ entry ∈ entries, entry.negated = negated ∧ rrtypeBit entry.text ≠ 0 := by
  constructor
  · intro hne
    have hself : mask &&& mask ≠ 0 := by rwa [UInt32.and_self]
    obtain ⟨entry, hmem, hneg, hbit⟩ := (h mask).mp hself
    refine ⟨entry, hmem, hneg, fun hzero => hbit ?_⟩
    rw [hzero, UInt32.zero_and]
  · rintro ⟨entry, hmem, hneg, hbit⟩ hzero
    refine (h (rrtypeBit entry.text)).mpr ⟨entry, hmem, hneg, ?_⟩ ?_
    · rwa [UInt32.and_self]
    · rw [hzero, UInt32.zero_and]

/-- **What the mask of a `dnstype` value lets through is what the value says**,
unless the value includes only types without a bit. -/
theorem chosen_of_dnstypeMask
    (hmask : parseDnstypeMask raw &&& qtypeBit qtype ≠ 0) (hknown : unknownWhitelist raw = false) :
    Chosen (dnstypeEntries raw) (namesType qtype) := by
  have hposition : ∃ i, qtype.position = some i ∧ i < 15 := by
    cases hq : qtype.position with
    | none =>
      rw [qtypeBit, hq] at hmask
      simp at hmask
    | some i =>
      cases qtype <;> cases hq <;> decide
  obtain ⟨i, hi, hlt⟩ := hposition
  have hbit : qtypeBit qtype = 1 <<< UInt32.ofNat i := by rw [qtypeBit, hi]
  rw [parseDnstypeMask] at hmask
  have hfold := fun test => foldl_dnstypeStep
    (splitBy (fun b => b == ch '|' || b == ch ',') raw) test (0, 0)
  generalize (splitBy (fun b => b == ch '|' || b == ch ',') raw).foldl dnstypeStep (0, 0) = masks
    at hmask hfold
  obtain ⟨positive, negated⟩ := masks
  have hpos : ∀ test, positive &&& test ≠ 0 ↔ Reached (dnstypeEntries raw) false test := by
    intro test
    rw [dnstypeEntries, reached_filter]
    simpa using (hfold test).1
  have hneg : ∀ test, negated &&& test ≠ 0 ↔ Reached (dnstypeEntries raw) true test := by
    intro test
    rw [dnstypeEntries, reached_filter]
    simpa using (hfold test).2
  have hexcluded : negated &&& qtypeBit qtype = 0 →
      ∀ entry ∈ dnstypeEntries raw, entry.negated = true →
        namesType qtype entry.text = false := by
    intro hzero entry hmem hn
    rw [Bool.eq_false_iff]
    intro hhit
    exact (hneg _).mpr ⟨entry, hmem, hn, (rrtypeBit_and_qtypeBit _ _).mpr hhit⟩ hzero
  dsimp only at hmask
  split at hmask
  · next hpure =>
    -- no known type is included, so the mask is all but the excluded ones
    rw [Bool.and_eq_true, beq_iff_eq, bne_iff_ne] at hpure
    rw [hbit, and_not_test32 _ _ (by omega), ← hbit] at hmask
    obtain ⟨entry, hmem, hn, hne⟩ := (ne_zero_iff_reached hneg).mp hpure.2
    refine ⟨ne_nil_of_mem hmem, hexcluded hmask.2, .inl ?_⟩
    by_contra hsome
    push Not at hsome
    obtain ⟨included, hincluded, hplain⟩ := hsome
    have hnone : ∀ e ∈ dnstypeEntries raw, e.negated = false → rrtypeBit e.text = 0 := by
      intro e he hen
      by_contra hb
      exact (ne_zero_iff_reached hpos).mpr ⟨e, he, hen, hb⟩ hpure.1
    have htrue : unknownWhitelist raw = true := by
      simp only [unknownWhitelist, Bool.and_eq_true, any_eq_true, all_eq_true,
        Bool.not_eq_true', Bool.or_eq_true, beq_iff_eq, bne_iff_ne]
      refine ⟨⟨⟨included, hincluded, Bool.eq_false_iff.mpr hplain⟩, fun e he => ?_⟩,
        entry, hmem, hn, hne⟩
      cases hen : e.negated with
      | true => exact .inl rfl
      | false => exact .inr (hnone e he hen)
    rw [htrue] at hknown
    cases hknown
  · rw [hbit, and_not_test32 _ _ (by omega), ← hbit] at hmask
    obtain ⟨entry, hmem, hn, hhit⟩ := (hpos _).mp hmask.1
    refine ⟨ne_nil_of_mem hmem, hexcluded hmask.2, .inr ⟨entry, hmem, hn, ?_⟩⟩
    exact (rrtypeBit_and_qtypeBit _ _).mp hhit

lemma foldl_applyEntry (hit : Bytes → Bool) (pieces : List Bytes) (hasPositive positiveHit : Bool) :
    pieces.foldl (Url.applyEntry hit) (some (hasPositive, positiveHit)) =
      if ((pieces.map readEntry).filter fun e => !e.text.isEmpty).any fun e =>
          e.negated && hit e.text then none
      else
        some (hasPositive || ((pieces.map readEntry).filter fun e => !e.text.isEmpty).any (!·.negated),
          positiveHit || ((pieces.map readEntry).filter fun e => !e.text.isEmpty).any fun e =>
            !e.negated && hit e.text) := by
  have hnone : ∀ rest : List Bytes, rest.foldl (Url.applyEntry hit) none = none := by
    intro rest
    induction rest with
    | nil => rfl
    | cons a rest ih => exact ih
  induction pieces generalizing hasPositive positiveHit with
  | nil => simp
  | cons piece pieces ih =>
    rw [foldl_cons]
    simp only [Url.applyEntry, readEntry, map_cons]
    cases stripPrefix [ch '~'] piece with
    | some rest =>
      cases hempty : rest.isEmpty <;> cases hhit : hit rest <;> simp [hempty, hhit, ih, hnone]
    | none =>
      cases hempty : piece.isEmpty <;> simp [hempty, ih, Bool.or_assoc]

lemma chosen_of_entriesApply (h : Url.entriesApply hit raw = true) (hsome : listEntries raw ≠ []) :
    Chosen (listEntries raw) hit := by
  rw [Url.entriesApply, foldl_applyEntry] at h
  split_ifs at h with hveto
  refine ⟨hsome, ?_, ?_⟩
  · intro entry hmem hneg
    rw [any_eq_true] at hveto
    rw [Bool.eq_false_iff]
    intro hhit
    exact hveto ⟨entry, hmem, by rw [hneg, hhit]; rfl⟩
  · have h' : (!(listEntries raw).any (!·.negated) ||
        (listEntries raw).any fun e => !e.negated && hit e.text) = true := by
      simpa [listEntries] using h
    rw [Bool.or_eq_true] at h'
    rcases h' with hall | hhit
    · left
      simpa using hall
    · right
      simpa using hhit

end Meaning

/-- A line in its written parts. -/
structure WrittenRule where
  exception : Bool
  pattern : Bytes
  tokens : List OptionToken

def written (line : Bytes) : WrittenRule :=
  let line := trim line
  let exception := startsWith (lit "@@") line
  let body := if exception then line.drop 2 else line
  ⟨exception, (splitOptions body).1, tokensOf (splitOptions body).2⟩

/-- Whether the URL is what the pattern describes, read with or without regard
to letter case. -/
def PatternAccepts (pattern : Bytes) (matchCase : Bool) (url : Bytes) : Prop :=
  let (anchor, rest) := splitAnchor pattern
  let (body, endAnchored) := splitEndAnchor rest
  (matchPattern anchor (if matchCase then body else lower body) url (hostSpan url).1
    (hostSpan url).2 endAnchored matchCase (Budget.new.openRule url.length)).1 = true

/-- A `client` token holds of the clients its scope admits, or of the others when
it is negated. -/
def OptionToken.HoldsClient (token : OptionToken) (ctx : ClientContext) : Prop :=
  ∃ raw scope, token.value = some raw ∧ ClientScope.parse raw = some scope ∧
    (scope.admits ctx.ip ctx.name = true ↔ token.negated = false)

/-- A token with a list as its value holds of what the list says, or of the rest
when it is negated. -/
def OptionToken.HoldsList (token : OptionToken) (entries : Bytes → List ListEntry)
    (hit : Bytes → Bool) : Prop :=
  ∃ raw, token.value = some raw ∧ (Chosen (entries raw) hit ↔ token.negated = false)

/-- What a token says about an occasion. A question has no document, method or
party, and a request asks for no record type, so the options about those hold of
nothing there; resource types are judged together, in `TypesHold`. -/
def OptionToken.Holds (token : OptionToken) (pattern : Bytes) (ctx : ClientContext) :
    Occasion → Prop
  | .question _ qtype =>
    match token.kind with
    | .dnstype => token.HoldsList dnstypeEntries (namesType qtype)
    | .client => token.HoldsClient ctx
    | .dnsrewrite | .resource _ => True
    | _ => False
  | .request r =>
    match token.kind with
    | .client => token.HoldsClient ctx
    | .thirdParty => Url.isThirdParty r = !token.negated
    | .firstParty => Url.isThirdParty r = token.negated
    | .document =>
      token.HoldsList (fun raw => listEntries (lower raw)) fun entry =>
        r.documentHost.any fun host => Url.hostUnder host entry
    | .method =>
      token.HoldsList (fun raw => listEntries (upper raw)) (eqIgnoreAsciiCase r.method)
    | .matchCase => token.negated = true ∨ PatternAccepts pattern true r.url
    | .resource _ => True
    | .dnstype | .dnsrewrite | .unknown => False

/-- What the resource types of a line say about a kind of request. A kind the
proxy could not determine is given to exceptions only. -/
def ResourceHolds (exception : Bool) (tokens : List OptionToken) (kind : ResourceType) : Prop :=
  (∀ token ∈ tokens, ∀ bit, token.kind ≠ .resource bit) ∨
    if kind = .unknown then exception = true
    else
      (∀ token ∈ tokens, token.kind = .resource (bitForRequest kind) → token.negated = false) ∧
        ((∀ token ∈ tokens, ∀ bit, token.kind = .resource bit → token.negated = true) ∨
          ∃ token ∈ tokens, token.kind = .resource (bitForRequest kind) ∧ token.negated = false)

def WrittenRule.TypesHold (w : WrittenRule) : Occasion → Prop
  | .question _ _ => ∀ token ∈ w.tokens, ∀ bit, token.kind ≠ .resource bit
  | .request r => ResourceHolds w.exception w.tokens r.resourceType

/-- Every option of the line holds. -/
def WrittenRule.Holds (w : WrittenRule) (ctx : ClientContext) (occasion : Occasion) : Prop :=
  (∀ token ∈ w.tokens, token.Holds w.pattern ctx occasion) ∧ w.TypesHold occasion

/-- Whether the line addresses a name and nothing else. -/
def WrittenRule.hostOnly (w : WrittenRule) : Bool :=
  (match domainRule w.pattern w.exception .default with
    | .rule _ => true
    | _ => false) &&
    !w.tokens.any (·.kind.requestOnly)

/-- Whether a token stays in force as written, given the tokens after it. -/
def OptionToken.kept (token : OptionToken) (hostOnly : Bool) (later : List OptionToken) : Bool :=
  let last := later.all fun other => other.kind.slot != token.kind.slot
  match token.kind with
  | .dnstype => hostOnly && last && !token.negated && token.value.any (!unknownWhitelist ·)
  | .dnsrewrite => hostOnly && last && token.value.isSome
  | .client => last && !token.negated
  | .thirdParty | .firstParty => last
  | .document => last && !token.negated && token.value.any fun raw => !(listEntries (lower raw)).isEmpty
  | .method => last && !token.negated && token.value.any fun raw => !(listEntries (upper raw)).isEmpty
  | .matchCase => last || token.negated
  | .resource _ => true
  | .unknown => false

/-- The tokens of a line that do not stay in force. -/
def lost (hostOnly : Bool) : List OptionToken → List OptionToken
  | [] => []
  | token :: later =>
    if token.kept hostOnly later then lost hostOnly later else token :: lost hostOnly later

section Meets

def WrittenRule.matchCase (w : WrittenRule) : Bool :=
  (lastOf .matchCase w.tokens).any (!·.negated)

/-- The client is one the `client` option in force admits. -/
def WrittenRule.MeetsClient (w : WrittenRule) (ctx : ClientContext) : Prop :=
  ∀ token raw, lastOf .client w.tokens = some token → token.value = some raw →
    ∃ scope, ClientScope.parse raw = some scope ∧ scope.admits ctx.ip ctx.name = true

/-- A name, asked for with this record type or none, meets a host-only line by the
options in force. -/
structure WrittenRule.MeetsHost (w : WrittenRule) (name : Bytes) (qtype : Option QueryType)
    (ctx : ClientContext) : Prop where
  covers : ∃ base, domainRule w.pattern w.exception .default = .rule base ∧
    (lower (dropDot name) = lower base.domain ∨
      (base.includeSubdomains = true ∧
        ∃ front, lower (dropDot name) = front ++ ch '.' :: lower base.domain))
  dnstype : ∀ token raw, lastOf .dnstype w.tokens = some token → token.value = some raw →
    ∃ t, qtype = some t ∧ parseDnstypeMask raw &&& qtypeBit t ≠ 0
  rewrite : ∀ token, lastOf .dnsrewrite w.tokens = some token → token.value.isSome = true →
    qtype.isSome = true
  client : w.MeetsClient ctx

/-- A request meets any other line by the options in force. -/
structure WrittenRule.MeetsRequest (w : WrittenRule) (request : HttpRequest)
    (ctx : ClientContext) : Prop where
  pattern : PatternAccepts w.pattern w.matchCase request.url
  party : ∀ token, lastOf .party w.tokens = some token →
    Url.isThirdParty request = decide (token.party = .third)
  types : ResourceHolds w.exception w.tokens request.resourceType
  document : ∀ token raw, lastOf .document w.tokens = some token → token.value = some raw →
    Url.domainsApply (lower raw) request.documentHost = true
  method : ∀ token raw, lastOf .method w.tokens = some token → token.value = some raw →
    Url.methodsApply (upper raw) request.method = true
  client : w.MeetsClient ctx

/-- An occasion that meets the line by its pattern and the options in force. -/
def WrittenRule.Meets (w : WrittenRule) (ctx : ClientContext) : Occasion → Prop
  | .question name qtype => w.hostOnly = true ∧ w.MeetsHost name (some qtype) ctx
  | .request r =>
    (w.hostOnly = true ∧ w.MeetsHost r.host none ctx) ∨
      (w.hostOnly = false ∧ w.MeetsRequest r ctx)

variable {w : WrittenRule} {later : List OptionToken} {ctx : ClientContext} {occasion : Occasion}

lemma WrittenRule.not_requestOnly (h : w.hostOnly = true)
    (hmem : token ∈ w.tokens) : token.kind.requestOnly = false := by
  rw [hostOnly, Bool.and_eq_true, Bool.not_eq_true', any_eq_false] at h
  exact Bool.eq_false_iff.mpr (h.2 token hmem)

lemma lastOf_eq_some
    (hslot : token.kind.slot = some slot) (hlater : ∀ other ∈ later, other.kind.slot ≠ some slot) :
    lastOf slot (before ++ token :: later) = some token := by
  have hnone : later.filter (fun other => other.kind.slot == some slot) = [] := by
    simpa [filter_eq_nil_iff] using hlater
  simp [lastOf, hslot, hnone]

lemma OptionToken.holdsList_of_chosen {token : OptionToken} (hvalue : token.value = some raw)
    (hplain : token.negated = false) (h : Chosen (entries raw) hit) : token.HoldsList entries hit :=
  ⟨raw, hvalue, iff_of_true h hplain⟩

lemma WrittenRule.MeetsClient.holds
    (h : w.MeetsClient ctx) (hlast : lastOf .client w.tokens = some token)
    (hkind : token.kind = .client) (husable : token.usable = true)
    (hplain : token.negated = false) : token.HoldsClient ctx := by
  simp only [OptionToken.usable, hkind, Option.any_eq_true] at husable
  obtain ⟨raw, hvalue, -⟩ := husable
  obtain ⟨scope, hscope, hadmits⟩ := h token raw hlast hvalue
  exact ⟨raw, scope, hvalue, hscope, iff_of_true hadmits hplain⟩

lemma WrittenRule.MeetsHost.holds (occasion : Occasion)
    (h : w.MeetsHost occasion.name occasion.qtype ctx) (hscope : token.kind.requestOnly = false)
    (hlast : ∀ slot, token.kind.slot = some slot →
      later.all (fun other => other.kind.slot != token.kind.slot) = true →
      lastOf slot w.tokens = some token)
    (husable : token.usable = true) (hkept : token.kept true later = true) :
    token.Holds w.pattern ctx occasion := by
  cases hk : token.kind with
  | dnstype =>
    simp only [OptionToken.kept, hk, Bool.and_eq_true, Bool.true_and, Bool.not_eq_true',
      Option.any_eq_true] at hkept
    obtain ⟨⟨hlater, hplain⟩, raw, hvalue, hknown⟩ := hkept
    have hl := hlast .dnstype (by rw [hk]; rfl) (by rw [hk]; exact hlater)
    obtain ⟨t, ht, hmask⟩ := h.dnstype token raw hl hvalue
    cases occasion with
    | request r => cases ht
    | question name qtype =>
      cases ht
      simp only [OptionToken.Holds, hk]
      exact OptionToken.holdsList_of_chosen hvalue hplain (chosen_of_dnstypeMask hmask hknown)
  | dnsrewrite =>
    simp only [OptionToken.kept, hk, Bool.and_eq_true, Bool.true_and] at hkept
    have hl := hlast .dnsrewrite (by rw [hk]; rfl) (by rw [hk]; exact hkept.1)
    have hsome := h.rewrite token hl hkept.2
    cases occasion with
    | request r => cases hsome
    | question name qtype => simp only [OptionToken.Holds, hk]
  | client =>
    simp only [OptionToken.kept, hk, Bool.and_eq_true, Bool.not_eq_true'] at hkept
    have hl := hlast .client (by rw [hk]; rfl) (by rw [hk]; exact hkept.1)
    have hholds := h.client.holds hl hk husable hkept.2
    cases occasion with
    | request | question => simpa only [OptionToken.Holds, hk] using hholds
  | _ => simp [hk, OptionKind.requestOnly] at hscope

lemma WrittenRule.MeetsRequest.holds (h : w.MeetsRequest request ctx)
    (hlast : ∀ slot, token.kind.slot = some slot →
      later.all (fun other => other.kind.slot != token.kind.slot) = true →
      lastOf slot w.tokens = some token)
    (husable : token.usable = true) (hkept : token.kept false later = true) :
    token.Holds w.pattern ctx (.request request) := by
  simp only [OptionToken.Holds]
  cases hk : token.kind with
  | dnstype | dnsrewrite | unknown => simp [OptionToken.kept, hk] at hkept
  | resource bit => trivial
  | client =>
    simp only [OptionToken.kept, hk, Bool.and_eq_true, Bool.not_eq_true'] at hkept
    have hl := hlast .client (by rw [hk]; rfl) (by rw [hk]; exact hkept.1)
    exact h.client.holds hl hk husable hkept.2
  | thirdParty | firstParty =>
    simp only [OptionToken.kept, hk] at hkept
    have hl := hlast .party (by rw [hk]; rfl) (by rw [hk]; exact hkept)
    rw [h.party token hl, OptionToken.party, hk]
    cases token.negated <;> rfl
  | document =>
    simp only [OptionToken.kept, hk, Bool.and_eq_true, Bool.not_eq_true', Option.any_eq_true,
      isEmpty_eq_false_iff] at hkept
    obtain ⟨⟨hlater, hplain⟩, raw, hvalue, hentries⟩ := hkept
    have hl := hlast .document (by rw [hk]; rfl) (by rw [hk]; exact hlater)
    exact OptionToken.holdsList_of_chosen hvalue hplain
      (chosen_of_entriesApply (h.document token raw hl hvalue) hentries)
  | method =>
    simp only [OptionToken.kept, hk, Bool.and_eq_true, Bool.not_eq_true', Option.any_eq_true,
      isEmpty_eq_false_iff] at hkept
    obtain ⟨⟨hlater, hplain⟩, raw, hvalue, hentries⟩ := hkept
    have hl := hlast .method (by rw [hk]; rfl) (by rw [hk]; exact hlater)
    exact OptionToken.holdsList_of_chosen hvalue hplain
      (chosen_of_entriesApply (h.method token raw hl hvalue) hentries)
  | matchCase =>
    simp only [OptionToken.kept, hk, Bool.or_eq_true] at hkept
    cases hneg : token.negated with
    | true => exact .inl rfl
    | false =>
      have hlater := hkept.resolve_right (by rw [hneg]; exact Bool.false_ne_true)
      have hl := hlast .matchCase (by rw [hk]; rfl) (by rw [hk]; exact hlater)
      have hcase : w.matchCase = true := by
        rw [WrittenRule.matchCase, hl, Option.any_some, hneg]
        rfl
      have hpattern := h.pattern
      rw [hcase] at hpattern
      exact .inr hpattern

/-- **A token that is not lost holds** wherever the options in force do. -/
theorem WrittenRule.holds_of_kept (hsplit : w.tokens = before ++ token :: later)
    (hkept : token.kept w.hostOnly later = true) (husable : token.usable = true)
    (hmeets : w.Meets ctx occasion) : token.Holds w.pattern ctx occasion := by
  have hmem : token ∈ w.tokens := by simp [hsplit]
  have hlast : ∀ slot, token.kind.slot = some slot →
      later.all (fun other => other.kind.slot != token.kind.slot) = true →
      lastOf slot w.tokens = some token := by
    intro slot hslot hlater
    rw [hsplit]
    refine lastOf_eq_some hslot fun other hother => ?_
    rw [← hslot]
    simpa using all_eq_true.mp hlater other hother
  cases occasion with
  | question name qtype =>
    obtain ⟨hhost, hm⟩ := hmeets
    rw [hhost] at hkept
    exact WrittenRule.MeetsHost.holds (.question name qtype) hm
      (not_requestOnly hhost hmem) hlast husable hkept
  | request r =>
    rcases hmeets with ⟨hhost, hm⟩ | ⟨hurl, hm⟩
    · rw [hhost] at hkept
      exact WrittenRule.MeetsHost.holds (.request r) hm
        (not_requestOnly hhost hmem) hlast husable hkept
    · rw [hurl] at hkept
      exact hm.holds hlast husable hkept

lemma WrittenRule.Meets.typesHold (h : w.Meets ctx occasion) : w.TypesHold occasion := by
  have hnone : w.hostOnly = true → ∀ token ∈ w.tokens, ∀ bit, token.kind ≠ .resource bit := by
    intro hhost token hmem bit hk
    have := not_requestOnly hhost hmem
    rw [hk] at this
    cases this
  cases occasion with
  | question name qtype => exact hnone h.1
  | request r =>
    rcases h with ⟨hhost, -⟩ | ⟨-, hm⟩
    · exact .inl (hnone hhost)
    · exact hm.types

lemma WrittenRule.holds_of_lost
    (husable : ∀ token ∈ w.tokens, token.usable = true) (hmeets : w.Meets ctx occasion)
    (hlost : ∀ token ∈ lost w.hostOnly w.tokens, token.Holds w.pattern ctx occasion) :
    w.Holds ctx occasion := by
  have hall : ∀ before later, w.tokens = before ++ later →
      (∀ token ∈ lost w.hostOnly later, token.Holds w.pattern ctx occasion) →
      ∀ token ∈ later, token.Holds w.pattern ctx occasion := by
    intro before later
    induction later generalizing before with
    | nil => simp
    | cons token later ih =>
      intro hsplit hlost
      have hstep := ih (before ++ [token]) (by simp [hsplit])
      rw [lost] at hlost
      by_cases hk : token.kept w.hostOnly later = true
      · rw [if_pos hk] at hlost
        have hholds := holds_of_kept hsplit hk (husable token (by simp [hsplit])) hmeets
        exact forall_mem_cons.mpr ⟨hholds, hstep hlost⟩
      · rw [if_neg hk] at hlost
        obtain ⟨hholds, hlost⟩ := forall_mem_cons.mp hlost
        exact forall_mem_cons.mpr ⟨hholds, hstep hlost⟩
  exact ⟨hall [] w.tokens rfl hlost, hmeets.typesHold⟩

lemma mem_of_mem_lost (h : token ∈ lost hostOnly tokens) : token ∈ tokens := by
  induction tokens with
  | nil => exact h
  | cons t tokens ih =>
    rw [lost] at h
    split at h
    · exact mem_cons_of_mem _ (ih h)
    · rcases mem_cons.mp h with rfl | h
      · exact mem_cons_self
      · exact mem_cons_of_mem _ (ih h)

end Meets

section Types

lemma kind_ne_resource (name : Bytes) (bit : UInt16) : namedKind name ≠ .resource bit := by
  rw [namedKind]
  split_ifs <;> simp

lemma exists_of_resource {token : OptionToken}
    (h : token.kind = .resource bit) : ∃ i < 12, bit = 1 <<< UInt16.ofNat i := by
  rw [OptionToken.kind, bitForOption] at h
  cases hfind : resourceTypes.findIdx? fun entry => entry.2.any (eqIgnoreAsciiCase token.name) with
  | none =>
    rw [hfind] at h
    exact absurd h (kind_ne_resource token.name bit)
  | some i =>
    rw [hfind] at h
    cases h
    exact ⟨i, (findIdx?_eq_some_iff_getElem.mp hfind).1, rfl⟩

lemma exists_of_known (h : kind ≠ .unknown) :
    ∃ j < 12, bitForRequest kind = 1 <<< UInt16.ofNat j := by
  cases kind with
  | unknown => exact absurd rfl h
  | document => exact ⟨0, by decide, by decide⟩
  | subdocument => exact ⟨1, by decide, by decide⟩
  | script => exact ⟨2, by decide, by decide⟩
  | stylesheet => exact ⟨3, by decide, by decide⟩
  | image => exact ⟨4, by decide, by decide⟩
  | font => exact ⟨5, by decide, by decide⟩
  | media => exact ⟨6, by decide, by decide⟩
  | xmlHttpRequest => exact ⟨7, by decide, by decide⟩
  | webSocket => exact ⟨8, by decide, by decide⟩
  | ping => exact ⟨9, by decide, by decide⟩
  | object => exact ⟨10, by decide, by decide⟩
  | other => exact ⟨11, by decide, by decide⟩

lemma resource_and_iff {token : OptionToken} (h : token.kind = .resource bit)
    (hknown : kind ≠ .unknown) :
    bit &&& bitForRequest kind ≠ 0 ↔ bit = bitForRequest kind := by
  have hbits : ∀ i < 12, ∀ j < 12,
      ((1 : UInt16) <<< UInt16.ofNat i &&& 1 <<< UInt16.ofNat j ≠ 0 ↔
        (1 : UInt16) <<< UInt16.ofNat i = 1 <<< UInt16.ofNat j) := by
    decide
  obtain ⟨i, hi, rfl⟩ := exists_of_resource h
  obtain ⟨j, hj, hbit⟩ := exists_of_known hknown
  rw [hbit]
  exact hbits i hi j hj

variable {tokens : List OptionToken} {st : OptionState}

lemma Tracks.positive_iff (h : Tracks tokens st) (hknown : kind ≠ .unknown) :
    st.positiveTypes &&& bitForRequest kind ≠ 0 ↔
      ∃ token ∈ tokens, token.kind = .resource (bitForRequest kind) ∧ token.negated = false := by
  rw [h.positive]
  constructor
  · rintro ⟨token, hmem, bit, hk, hneg, hbit⟩
    rw [(resource_and_iff hk hknown).mp hbit] at hk
    exact ⟨token, hmem, hk, hneg⟩
  · rintro ⟨token, hmem, hk, hneg⟩
    exact ⟨token, hmem, _, hk, hneg, (resource_and_iff hk hknown).mpr rfl⟩

lemma Tracks.negated_iff (h : Tracks tokens st) (hknown : kind ≠ .unknown) :
    st.negatedTypes &&& bitForRequest kind = 0 ↔
      ∀ token ∈ tokens, token.kind = .resource (bitForRequest kind) → token.negated = false := by
  rw [← not_iff_not, ← Ne, h.negated]
  push Not
  constructor
  · rintro ⟨token, hmem, bit, hk, hneg, hbit⟩
    rw [(resource_and_iff hk hknown).mp hbit] at hk
    exact ⟨token, hmem, hk, by rw [hneg]; exact Bool.true_eq_false.mp⟩
  · rintro ⟨token, hmem, hk, hneg⟩
    exact ⟨token, hmem, _, hk, Bool.not_eq_false _ ▸ hneg, (resource_and_iff hk hknown).mpr rfl⟩

lemma Tracks.positive_eq_zero_iff (h : Tracks tokens st) :
    st.positiveTypes = 0 ↔
      ∀ token ∈ tokens, ∀ bit, token.kind = .resource bit → token.negated = true := by
  constructor
  · intro hzero token hmem bit hk
    by_contra hneg
    obtain ⟨i, hi, rfl⟩ := exists_of_resource hk
    have hself : ∀ i < 12, (1 : UInt16) <<< UInt16.ofNat i &&& 1 <<< UInt16.ofNat i ≠ 0 := by decide
    refine (h.positive (1 <<< UInt16.ofNat i)).mpr
      ⟨token, hmem, _, hk, Bool.eq_false_iff.mpr hneg, hself i hi⟩ ?_
    rw [hzero, UInt16.zero_and]
  · intro hall
    by_contra hne
    have hself : st.positiveTypes &&& st.positiveTypes ≠ 0 := by rwa [UInt16.and_self]
    obtain ⟨token, hmem, bit, hk, hneg, -⟩ := (h.positive _).mp hself
    rw [hall token hmem bit hk] at hneg
    cases hneg

/-- **The type mask lets through what the type options say.** -/
theorem Tracks.types_iff (h : Tracks tokens st) (hsupported : st.finish.unsupported = false)
    (exception : Bool) (kind : ResourceType) :
    (st.finish.resourceTypes = 0 ∨ st.finish.resourceTypes &&& bitForRequest kind ≠ 0 ∨
        (bitForRequest kind = 0 ∧ action exception = .allow)) ↔
      ResourceHolds exception tokens kind := by
  have hallow : action exception = .allow ↔ exception = true := by
    cases exception <;> simp [action]
  have hsome : st.sawType = true ↔ ¬ ∀ token ∈ tokens, ∀ bit, token.kind ≠ .resource bit := by
    rw [h.sawType]
    push Not
    rfl
  rw [OptionState.finish] at hsupported ⊢
  rw [ResourceHolds]
  by_cases hsaw : st.sawType = true
  case neg =>
    rw [if_neg hsaw, h.resourceTypes]
    exact iff_of_true (.inl rfl) (.inl (not_not.mp (mt hsome.mpr hsaw)))
  rw [if_pos hsaw] at hsupported ⊢
  rw [Bool.or_eq_false_iff, beq_eq_false_iff_ne] at hsupported
  rw [or_iff_right hsupported.2, or_iff_right (hsome.mp hsaw)]
  by_cases hknown : kind = .unknown
  · rw [if_pos hknown]
    subst hknown
    have hzero : bitForRequest .unknown = 0 := rfl
    simp [hzero, hallow]
  · rw [if_neg hknown]
    obtain ⟨j, hj, hbit⟩ := exists_of_known hknown
    have hne : bitForRequest kind ≠ 0 := by
      have : ∀ j < 12, (1 : UInt16) <<< UInt16.ofNat j ≠ 0 := by decide
      rw [hbit]
      exact this j hj
    have hall : allTypes &&& bitForRequest kind ≠ 0 := by
      have : ∀ j < 12, allTypes &&& (1 : UInt16) <<< UInt16.ofNat j ≠ 0 := by decide
      rw [hbit]
      exact this j hj
    have hdiff : ∀ a : UInt16, (a &&& ~~~st.negatedTypes) &&& bitForRequest kind ≠ 0 ↔
        a &&& bitForRequest kind ≠ 0 ∧ st.negatedTypes &&& bitForRequest kind = 0 := by
      intro a
      rw [hbit]
      exact and_not_test16 a _ (by omega)
    rw [or_iff_left (fun hz => hne hz.1), ← h.negated_iff hknown, ← h.positive_iff hknown,
      ← h.positive_eq_zero_iff]
    split_ifs with hpure
    · rw [hdiff]
      exact ⟨fun hx => ⟨hx.2, .inl hpure⟩, fun hx => ⟨hall, hx.1⟩⟩
    · rw [hdiff, or_iff_right hpure]
      exact and_comm

end Types

end FastAdHunter.Rules.Adblock
