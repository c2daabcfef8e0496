import FastAdHunter.Rules.Types

/-!
# Domain normalisation

The one place where text becomes a rule's domain. A normalised domain is not
empty, fits the name length limit, is lower case and consists of letters,
digits, hyphens, dots and underscores.
-/

namespace FastAdHunter.Rules

open Lib

/-- Longest name a rule may anchor to. -/
def maxDomainLen : Nat := 253

/-- The characters of a domain: ASCII letters and digits, `-`, `.`, `_`. -/
def isDomainByte (b : UInt8) : Bool :=
  isAsciiAlphanumeric b || b == ch '-' || b == ch '.' || b == ch '_'

/-- Trim white space and trailing dots, check every character, fold to lower
case. -/
def normalizeDomain (candidate : Bytes) : Option Bytes :=
  let candidate := trimEndMatches (ch '.') (trim candidate)
  if candidate.isEmpty || decide (maxDomainLen < candidate.length) then none
  else if !candidate.all isDomainByte then none
  else if startsWith [ch '-'] candidate || startsWith [ch '.'] candidate ||
      endsWith [ch '-'] candidate then none
  else if candidate.any isAsciiUppercase then some (lower candidate)
  else some candidate

structure IsNormalDomain (d : Bytes) : Prop where
  ne_nil : d ≠ []
  length_le : d.length ≤ maxDomainLen
  bytes : ∀ b ∈ d, isDomainByte b = true
  lower_eq : lower d = d

lemma isDomainByte_toLower :
    ∀ b : UInt8, isDomainByte b = true → isDomainByte (toLower b) = true := by
  decide +kernel

lemma lower_eq_self (h : s.any isAsciiUppercase = false) : lower s = s := by
  induction s with
  | nil => rfl
  | cons b s ih =>
    simp only [List.any_cons, Bool.or_eq_false_iff] at h
    rw [lower_cons, toLower_of_not_upper h.1, ih h.2]

lemma normalizeDomain_spec (h : normalizeDomain candidate = some d) :
    IsNormalDomain d := by
  simp only [normalizeDomain] at h
  generalize trimEndMatches (ch '.') (trim candidate) = c at h
  split at h
  · cases h
  · next hlen =>
    simp only [Bool.or_eq_true, decide_eq_true_eq, not_or, not_lt,
      List.isEmpty_iff] at hlen
    split at h
    · cases h
    · next hall =>
      have hall' : ∀ b ∈ c, isDomainByte b = true := by
        simpa using hall
      split at h
      · cases h
      · split at h
        · cases h
          refine ⟨?_, ?_, ?_, lower_lower c⟩
          · intro hc
            exact hlen.1 (by simpa [lower] using hc)
          · simpa using hlen.2
          · intro b hb
            obtain ⟨a, ha, rfl⟩ := List.mem_map.mp hb
            exact isDomainByte_toLower a (hall' a ha)
        · next hup =>
          cases h
          exact ⟨hlen.1, hlen.2, hall', lower_eq_self (by simpa using hup)⟩

end FastAdHunter.Rules
