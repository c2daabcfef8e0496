import FastAdHunter.Lib.Bytes

/-!
# Case folding and separators

Folding a text to lower case moves no separator: an operation that looks for a
byte that is not a letter gives the folded parts of what it gives on the text.
-/

namespace FastAdHunter.Lib

section Folding

/-- A byte that is not a letter. -/
def Caseless (c : UInt8) : Prop :=
  isAsciiAlphabetic c = false

instance (c : UInt8) : Decidable (Caseless c) :=
  inferInstanceAs (Decidable (isAsciiAlphabetic c = false))

variable {c : UInt8}

lemma toLower_eq_iff (hc : Caseless c) (b : UInt8) : toLower b = c ↔ b = c := by
  simp only [Caseless, isAsciiAlphabetic, isAsciiUppercase, isAsciiLowercase,
    Bool.or_eq_false_iff, Bool.and_eq_false_iff, decide_eq_false_iff_not] at hc
  simp only [toLower, isAsciiUppercase]
  grind

lemma toLower_beq (hc : Caseless c) (b : UInt8) : (toLower b == c) = (b == c) := by
  rw [Bool.eq_iff_iff, beq_iff_eq, beq_iff_eq, toLower_eq_iff hc]

lemma mem_lower_iff (hc : Caseless c) (s : Bytes) : c ∈ lower s ↔ c ∈ s := by
  simp [lower, toLower_eq_iff hc]

lemma lower_reverse (s : Bytes) : (lower s).reverse = lower s.reverse := by
  simp [lower]

lemma splitOnce_lower (hc : Caseless c) (s : Bytes) :
    splitOnce c (lower s) = (splitOnce c s).map fun parts => (lower parts.1, lower parts.2) := by
  induction s with
  | nil => rfl
  | cons b s ih =>
    rw [lower_cons, splitOnce, splitOnce, toLower_beq hc, ih]
    cases b == c with
    | true => rfl
    | false => cases splitOnce c s <;> rfl

lemma rsplitOnce_lower (hc : Caseless c) (s : Bytes) :
    rsplitOnce c (lower s) = (rsplitOnce c s).map fun parts => (lower parts.1, lower parts.2) := by
  rw [rsplitOnce, rsplitOnce, lower_reverse, splitOnce_lower hc]
  cases splitOnce c s.reverse with
  | none => rfl
  | some parts => simp [lower_reverse]

lemma trimStartMatches_lower (hc : Caseless c) (s : Bytes) :
    trimStartMatches c (lower s) = lower (trimStartMatches c s) := by
  rw [trimStartMatches, trimStartMatches, lower, List.dropWhile_map]
  have : ((fun x => x == c) ∘ toLower) = fun x => x == c := funext fun b => toLower_beq hc b
  rw [this]
  rfl

lemma trimEndMatches_lower (hc : Caseless c) (s : Bytes) :
    trimEndMatches c (lower s) = lower (trimEndMatches c s) := by
  have h := trimStartMatches_lower hc s.reverse
  rw [trimStartMatches, trimStartMatches] at h
  rw [trimEndMatches, trimEndMatches, lower_reverse, h, lower_reverse]

lemma stripPrefix_lower (hp : ∀ c ∈ p, Caseless c) (s : Bytes) :
    stripPrefix p (lower s) = (stripPrefix p s).map lower := by
  induction p generalizing s with
  | nil => rfl
  | cons c p ih =>
    cases s with
    | nil => rfl
    | cons b s =>
      have hc : (c == toLower b) = (c == b) := by
        rw [BEq.comm, toLower_beq (hp c List.mem_cons_self), BEq.comm]
      rw [lower_cons, stripPrefix, stripPrefix, hc,
        ih fun d hd => hp d (List.mem_cons_of_mem _ hd)]
      split <;> rfl

lemma stripSuffix_lower (hp : ∀ c ∈ p, Caseless c) (s : Bytes) :
    stripSuffix p (lower s) = (stripSuffix p s).map lower := by
  have hp' : ∀ c ∈ p.reverse, Caseless c := fun c hc => hp c (List.mem_reverse.mp hc)
  rw [stripSuffix, stripSuffix, lower_reverse, stripPrefix_lower hp']
  cases stripPrefix p.reverse s.reverse with
  | none => rfl
  | some rest => simp [lower_reverse]

lemma findStr_lower (hp : ∀ c ∈ p, Caseless c) (s : Bytes) :
    findStr p (lower s) = findStr p s := by
  induction s with
  | nil => rfl
  | cons b s ih =>
    have hstart : startsWith p (lower (b :: s)) = startsWith p (b :: s) := by
      rw [startsWith, startsWith, stripPrefix_lower hp, Option.isSome_map]
    rw [lower_cons] at hstart ⊢
    rw [findStr, findStr, hstart, ih]

variable {f : UInt8 → Bool}

lemma findByte_lower (hf : ∀ b, f (toLower b) = f b) (s : Bytes) :
    findByte f (lower s) = findByte f s := by
  have hcomp : f ∘ toLower = f := funext hf
  rw [findByte, findByte, lower, List.findIdx?_map, hcomp]

lemma splitBy_lower (hf : ∀ b, f (toLower b) = f b) (s : Bytes) :
    splitBy f (lower s) = (splitBy f s).map lower := by
  induction s with
  | nil => rfl
  | cons b s ih =>
    rw [lower_cons, splitBy, splitBy, hf, ih]
    cases f b with
    | true => rfl
    | false => cases splitBy f s <;> rfl

end Folding

end FastAdHunter.Lib
