import FastAdHunter.Lib.Words
import FastAdHunter.Rules.Parser.Lists

/-!
# The text of a plain block rule

A rule for a domain without options has a one-line adblock text, `||domain^` or
`||domain^|`, and that text as a list of its own parses to exactly that rule.
-/

namespace FastAdHunter.Rules

open Lib List

lemma isGraphic_of_isDomainByte : ∀ b : UInt8, isDomainByte b = true → isGraphic b = true := by
  decide +kernel

/-- The edges of a domain: no hyphen or dot before it, neither after it. -/
structure HasDomainEdges (d : Bytes) : Prop where
  head : startsWith [ch '-'] d = false ∧ startsWith [ch '.'] d = false
  hyphen : endsWith [ch '-'] d = false
  dot : d.getLast? ≠ some (ch '.')

lemma startsWith_singleton_iff (b : UInt8) (s : Bytes) :
    startsWith [b] s = true ↔ s.head? = some b := by
  cases s with
  | nil => simp [startsWith, stripPrefix]
  | cons c s =>
    by_cases hbc : b = c
    · subst hbc
      simp [startsWith, stripPrefix]
    · simp [startsWith, stripPrefix, hbc, Ne.symm hbc]

lemma endsWith_singleton_iff (b : UInt8) (s : Bytes) :
    endsWith [b] s = true ↔ s.getLast? = some b := by
  rw [← head?_reverse, ← startsWith_singleton_iff]
  simp [endsWith, stripSuffix, startsWith]

lemma head?_lower_ne (hc : ∀ b, toLower b = c → b = c)
    (h : s.head? ≠ some c) : (lower s).head? ≠ some c := by
  intro heq
  rw [lower, head?_map, Option.map_eq_some_iff] at heq
  obtain ⟨b, hb, hlow⟩ := heq
  exact h (by rw [hb, hc b hlow])

lemma getLast?_lower_ne (hc : ∀ b, toLower b = c → b = c)
    (h : s.getLast? ≠ some c) : (lower s).getLast? ≠ some c := by
  have hrev : (lower s).reverse = lower s.reverse := by simp [lower]
  rw [← head?_reverse, hrev]
  exact head?_lower_ne hc (by rwa [head?_reverse])

lemma toLower_eq_hyphen : ∀ b : UInt8, toLower b = ch '-' → b = ch '-' := by
  decide +kernel

lemma toLower_eq_dot : ∀ b : UInt8, toLower b = ch '.' → b = ch '.' := by
  decide +kernel

lemma trimEndMatches_getLast? (b : UInt8) (s : Bytes) :
    (trimEndMatches b s).getLast? ≠ some b := by
  rw [trimEndMatches, getLast?_reverse]
  intro h
  have := head?_dropWhile_not (· == b) s.reverse
  rw [h] at this
  simp at this

lemma trimEndMatches_eq_self (h : s.getLast? ≠ some b) :
    trimEndMatches b s = s := by
  rw [← head?_reverse] at h
  rw [trimEndMatches]
  cases hs : s.reverse with
  | nil => rw [reverse_eq_nil_iff.mp hs]; rfl
  | cons c t =>
    have hc : (c == b) = false := by
      rw [beq_eq_false_iff_ne]
      rintro rfl
      exact h (by rw [hs]; rfl)
    rw [dropWhile_cons, hc]
    simp [← hs]

lemma normalizeDomain_edges (h : normalizeDomain candidate = some d) :
    HasDomainEdges d := by
  have hdot := trimEndMatches_getLast? (ch '.') (trim candidate)
  simp only [normalizeDomain] at h
  generalize trimEndMatches (ch '.') (trim candidate) = c at hdot h
  split at h
  · cases h
  · split at h
    · cases h
    · split at h
      · cases h
      · next hedges =>
        simp only [Bool.or_eq_true, not_or, startsWith_singleton_iff,
          endsWith_singleton_iff] at hedges
        obtain ⟨⟨hminus, hfirst⟩, hlast⟩ := hedges
        split at h
        · cases h
          refine ⟨⟨?_, ?_⟩, ?_, getLast?_lower_ne toLower_eq_dot hdot⟩
          · rw [Bool.eq_false_iff, Ne, startsWith_singleton_iff]
            exact head?_lower_ne toLower_eq_hyphen hminus
          · rw [Bool.eq_false_iff, Ne, startsWith_singleton_iff]
            exact head?_lower_ne toLower_eq_dot hfirst
          · rw [Bool.eq_false_iff, Ne, endsWith_singleton_iff]
            exact getLast?_lower_ne toLower_eq_hyphen hlast
        · cases h
          refine ⟨⟨?_, ?_⟩, ?_, hdot⟩
          · rwa [Bool.eq_false_iff, Ne, startsWith_singleton_iff]
          · rwa [Bool.eq_false_iff, Ne, startsWith_singleton_iff]
          · rwa [Bool.eq_false_iff, Ne, endsWith_singleton_iff]

lemma normalizeDomain_idem (h : normalizeDomain candidate = some d) :
    normalizeDomain d = some d := by
  have hnormal := normalizeDomain_spec h
  have hedges := normalizeDomain_edges h
  have hgraphic : ∀ b ∈ d, isGraphic b = true :=
    fun b hb => isGraphic_of_isDomainByte b (hnormal.bytes b hb)
  have htrim : trim d = d :=
    trim_eq_self (fun b hb => hgraphic b (mem_of_mem_head? hb))
      (fun b hb => hgraphic b (mem_of_mem_getLast? hb))
  have hempty : (d.isEmpty || decide (maxDomainLen < d.length)) = false := by
    rw [Bool.or_eq_false_iff, isEmpty_eq_false_iff, decide_eq_false_iff_not, not_lt]
    exact ⟨hnormal.ne_nil, hnormal.length_le⟩
  have hall : d.all isDomainByte = true := all_eq_true.mpr hnormal.bytes
  simp only [normalizeDomain, htrim, trimEndMatches_eq_self hedges.dot, hempty, hall,
    hedges.head, hedges.hyphen, hnormal.lower_eq, Bool.or_self, Bool.not_true,
    Bool.false_eq_true, if_false, ite_self]

section PlainText

/-- What follows the domain of a rule: the separator, and a bar when the rule is
about the name alone. -/
def plainTail (includeSubdomains : Bool) : Bytes :=
  if includeSubdomains then lit "^" else lit "^|"

/-- The adblock text of a block rule without options. -/
def plainText (d : Bytes) (includeSubdomains : Bool) : Bytes :=
  lit "||" ++ (d ++ plainTail includeSubdomains)

variable {d : Bytes} (includeSubdomains : Bool)

lemma mem_plainTail {includeSubdomains : Bool}
    (h : b ∈ plainTail includeSubdomains) : b = ch '^' ∨ b = ch '|' := by
  cases includeSubdomains with
  | true => exact .inl (mem_singleton.mp h)
  | false => simpa [plainTail, lit] using h

lemma mem_plainText {includeSubdomains : Bool}
    (h : b ∈ plainText d includeSubdomains) : b ∈ d ∨ b = ch '^' ∨ b = ch '|' := by
  rw [plainText, mem_append, mem_append] at h
  rcases h with h | h | h
  · exact .inr (.inr (by simpa [lit] using h))
  · exact .inl h
  · exact .inr (mem_plainTail h)

lemma plainText_graphic (hd : ∀ b ∈ d, isDomainByte b = true) :
    ∀ b ∈ plainText d includeSubdomains, isGraphic b = true := by
  intro b hb
  rcases mem_plainText hb with hb | rfl | rfl
  · exact isGraphic_of_isDomainByte b (hd b hb)
  · decide
  · decide

lemma not_mem_plainText (hd : ∀ b ∈ d, isDomainByte b = true)
    (hc : isDomainByte c = false ∧ c ≠ ch '^' ∧ c ≠ ch '|') :
    c ∉ plainText d includeSubdomains := by
  intro h
  rcases mem_plainText h with h | h | h
  · exact absurd (hd c h) (by rw [hc.1]; exact Bool.false_ne_true)
  · exact hc.2.1 h
  · exact hc.2.2 h

lemma plainText_ne_nil : plainText d includeSubdomains ≠ [] := cons_ne_nil _ _

lemma trim_plainText (hd : ∀ b ∈ d, isDomainByte b = true) :
    trim (plainText d includeSubdomains) = plainText d includeSubdomains :=
  trim_eq_self
    (fun b hb => plainText_graphic includeSubdomains hd b (mem_of_mem_head? hb))
    (fun b hb => plainText_graphic includeSubdomains hd b (mem_of_mem_getLast? hb))

lemma startsWith_plainText : startsWith (lit "||") (plainText d includeSubdomains) = true := by
  rfl

lemma detectFormat_plainText (hd : ∀ b ∈ d, isDomainByte b = true) :
    detectFormat (plainText d includeSubdomains) = .adblock := by
  have hgraphic := plainText_graphic includeSubdomains hd
  have hclass : classifyLine (plainText d includeSubdomains) = some .adblock := by
    rw [classifyLine, splitWhitespace_graphic hgraphic (plainText_ne_nil includeSubdomains)]
    simp [looksLikeAdblock, startsWith_plainText]
  have hkept : isIgnorable (plainText d includeSubdomains) = false := rfl
  rw [detectFormat, lines_graphic hgraphic (plainText_ne_nil includeSubdomains), map_singleton,
    trim_plainText includeSubdomains hd, filter_singleton, hkept]
  simp [countVotes, sampleLines, hclass]

lemma optionSeparator_none (h : ch '$' ∉ s) (escaped : Bool) (i : Nat) :
    Adblock.optionSeparator s escaped i none = none := by
  induction s generalizing escaped i with
  | nil => rfl
  | cons b s ih =>
    rw [mem_cons, not_or] at h
    have hb : (b == ch '$') = false := beq_eq_false_iff_ne.mpr (Ne.symm h.1)
    rw [Adblock.optionSeparator, hb]
    exact ih h.2 _ _

lemma findByte_plain (hd : ∀ b ∈ d, isDomainByte b = true) :
    findByte (fun b => b == ch '^' || b == ch '/') (d ++ plainTail includeSubdomains) =
      some d.length := by
  have hnone : d.findIdx? (fun b => b == ch '^' || b == ch '/') = none := by
    rw [findIdx?_eq_none_iff]
    intro b hb
    rw [Bool.or_eq_false_iff, beq_eq_false_iff_ne, beq_eq_false_iff_ne]
    exact ⟨by rintro rfl; exact absurd (hd _ hb) (by decide),
      by rintro rfl; exact absurd (hd _ hb) (by decide)⟩
  rw [findByte, findIdx?_append, hnone]
  cases includeSubdomains <;> simp [plainTail, lit, findIdx?_cons]

lemma domainRule_plain (hd : normalizeDomain d = some d) :
    Adblock.domainRule (plainText d includeSubdomains) false .default =
      .rule (.plain d .block includeSubdomains) := by
  have hnormal := normalizeDomain_spec hd
  have hempty : d.isEmpty = false := isEmpty_eq_false_iff.mpr hnormal.ne_nil
  rw [Adblock.domainRule, plainText, (stripPrefix_eq_some_iff _ _ _).mpr rfl]
  simp only [findByte_plain includeSubdomains hnormal.bytes, Option.getD_some, take_left',
    drop_left', hempty, hd]
  cases includeSubdomains <;> rfl

/-- **The text of a plain block rule is that rule.** -/
theorem parseRuleList_plainText (hd : normalizeDomain d = some d) :
    (parseRuleList (plainText d includeSubdomains)).rules =
      [.active (.plain d .block includeSubdomains)] := by
  have hbytes := (normalizeDomain_spec hd).bytes
  have hgraphic := plainText_graphic includeSubdomains hbytes
  have hmarkers : (Adblock.cosmeticMarkers.filterMap fun marker =>
      findStr marker (plainText d includeSubdomains)) = [] := by
    rw [filterMap_eq_nil_iff]
    intro marker hmarker
    have hhash : ch '#' ∈ marker := by
      revert marker
      decide
    exact findStr_eq_none hhash (not_mem_plainText includeSubdomains hbytes (by decide))
  have hoptions : Adblock.splitOptions (plainText d includeSubdomains) =
      (plainText d includeSubdomains, []) := by
    rw [Adblock.splitOptions, optionSeparator_none
      (not_mem_plainText includeSubdomains hbytes (by decide))]
  have hrule : Adblock.parseRule (plainText d includeSubdomains) =
      .rules [.active (.plain d .block includeSubdomains)] := by
    have hexception : startsWith (lit "@@") (plainText d includeSubdomains) = false := rfl
    rw [Adblock.parseRule, hexception]
    simp only [Bool.false_eq_true, if_false, hoptions]
    have hempty : Adblock.parseOptions [] = some .default := rfl
    rw [hempty]
    dsimp only
    rw [Adblock.classify, domainRule_plain includeSubdomains hd]
    rfl
  have hline : Adblock.parseLine (plainText d includeSubdomains) =
      .rules [.active (.plain d .block includeSubdomains)] := by
    rw [Adblock.parseLine, trim_plainText includeSubdomains hbytes, hmarkers, ← hrule]
    rfl
  rw [parseRuleList, detectFormat_plainText includeSubdomains hbytes]
  simp only [Adblock.parse, collectLines,
    lines_graphic hgraphic (plainText_ne_nil includeSubdomains), zipIdx_singleton,
    foldl_cons, foldl_nil, collectStep, hline, nil_append]

end PlainText

end FastAdHunter.Rules
