import Mathlib.Data.List.Basic
import Mathlib.Data.FinEnum
import Mathlib.Tactic

/-!
# Byte strings and ASCII case folding

Text is a list of bytes: a string in UTF-8 is the list of its code units, and
every operation below looks at ASCII bytes only, so it never has to decode a
multi-byte character.

The module collects the case folding used by hashing and by comparison, the
usual prefix and suffix strippers, splitting at one byte, and trimming of
Unicode white space.
-/

namespace FastAdHunter.Lib

open List

/-- A byte string; a UTF-8 string is the list of its code units. -/
abbrev Bytes := List UInt8

/-- The bytes of an ASCII literal. -/
def lit (s : String) : Bytes :=
  s.toList.map fun c => UInt8.ofNat c.toNat

/-- The byte of one ASCII character. -/
abbrev ch (c : Char) : UInt8 :=
  UInt8.ofNat c.toNat

def isAsciiUppercase (b : UInt8) : Bool :=
  65 ≤ b && b ≤ 90

def isAsciiLowercase (b : UInt8) : Bool :=
  97 ≤ b && b ≤ 122

def isAsciiDigit (b : UInt8) : Bool :=
  48 ≤ b && b ≤ 57

def isAsciiAlphabetic (b : UInt8) : Bool :=
  isAsciiUppercase b || isAsciiLowercase b

def isAsciiAlphanumeric (b : UInt8) : Bool :=
  isAsciiAlphabetic b || isAsciiDigit b

/-- ASCII white space: tab, line feed, form feed, carriage return, space. -/
def isAsciiWhitespace (b : UInt8) : Bool :=
  b == 9 || b == 10 || b == 12 || b == 13 || b == 32

/-- Lower case of one byte; every byte outside `A`–`Z` is left alone. -/
def toLower (b : UInt8) : UInt8 :=
  if isAsciiUppercase b then b + 32 else b

/-- Upper case of one byte; every byte outside `a`–`z` is left alone. -/
def toUpper (b : UInt8) : UInt8 :=
  if isAsciiLowercase b then b - 32 else b

@[simp] lemma toLower_toLower (b : UInt8) : toLower (toLower b) = toLower b := by
  unfold toLower isAsciiUppercase
  grind

lemma toLower_of_not_upper (h : isAsciiUppercase b = false) : toLower b = b := by
  simp [toLower, h]

/-- Lower case of a byte string. -/
def lower (s : Bytes) : Bytes :=
  s.map toLower

/-- Upper case of a byte string. -/
def upper (s : Bytes) : Bytes :=
  s.map toUpper

@[simp] lemma lower_nil : lower [] = [] := rfl

@[simp] lemma lower_cons (b : UInt8) (s : Bytes) :
    lower (b :: s) = toLower b :: lower s := rfl

@[simp] lemma lower_append (s t : Bytes) : lower (s ++ t) = lower s ++ lower t := by
  simp [lower]

@[simp] lemma length_lower (s : Bytes) : (lower s).length = s.length := by
  simp [lower]

@[simp] lemma lower_lower (s : Bytes) : lower (lower s) = lower s := by
  simp [lower]

def eqIgnoreAsciiCase (s t : Bytes) : Bool :=
  lower s == lower t

@[simp] lemma eqIgnoreAsciiCase_iff (s t : Bytes) :
    eqIgnoreAsciiCase s t = true ↔ lower s = lower t := by
  simp [eqIgnoreAsciiCase]

lemma eqIgnoreAsciiCase_length (h : eqIgnoreAsciiCase s t = true) :
    s.length = t.length := by
  rw [eqIgnoreAsciiCase_iff] at h
  rw [← length_lower s, h, length_lower]

/-- Drop a literal prefix, or report that it is not there. -/
def stripPrefix : Bytes → Bytes → Option Bytes
  | [], s => some s
  | _ :: _, [] => none
  | p :: ps, b :: s => if p == b then stripPrefix ps s else none

lemma stripPrefix_eq_some_iff (p s r : Bytes) : stripPrefix p s = some r ↔ s = p ++ r := by
  induction p generalizing s with
    simp [stripPrefix]
  | cons a p ih =>
    cases s with
    | nil =>
      simp [stripPrefix]
    | cons b s =>
      by_cases h : a = b
      · subst h
        simp [stripPrefix, ih]
      · have h' : ¬ b = a := fun e => h e.symm
        simp [stripPrefix, h, h']

/-- Drop a literal suffix, or report that it is not there. -/
def stripSuffix (p s : Bytes) : Option Bytes :=
  (stripPrefix p.reverse s.reverse).map List.reverse

lemma stripSuffix_eq_some_iff (p s r : Bytes) : stripSuffix p s = some r ↔ s = r ++ p := by
  unfold stripSuffix
  rw [Option.map_eq_some_iff]
  constructor
  · rintro ⟨q, hq, rfl⟩
    rw [stripPrefix_eq_some_iff] at hq
    have := congrArg List.reverse hq
    simpa using this
  · rintro rfl
    refine ⟨r.reverse, ?_, by simp⟩
    rw [stripPrefix_eq_some_iff]
    simp

/-- `s` starts with `p`. -/
def startsWith (p s : Bytes) : Bool :=
  (stripPrefix p s).isSome

/-- `s` ends with `p`. -/
def endsWith (p s : Bytes) : Bool :=
  (stripSuffix p s).isSome

/-- Drop every leading occurrence of one byte. -/
def trimStartMatches (b : UInt8) (s : Bytes) : Bytes :=
  s.dropWhile (· == b)

/-- Drop every trailing occurrence of one byte. -/
def trimEndMatches (b : UInt8) (s : Bytes) : Bytes :=
  (s.reverse.dropWhile (· == b)).reverse

/-- Split at every byte that satisfies `p`; the pieces are never fewer than
one. -/
def splitBy (p : UInt8 → Bool) : Bytes → List Bytes
  | [] => [[]]
  | b :: s =>
    if p b then [] :: splitBy p s
    else
      match splitBy p s with
      | [] => [[b]]
      | w :: ws => (b :: w) :: ws

/-- Split at the first occurrence of a byte. -/
def splitOnce (c : UInt8) : Bytes → Option (Bytes × Bytes)
  | [] => none
  | b :: s =>
    if b == c then some ([], s)
    else (splitOnce c s).map fun (u, v) => (b :: u, v)

/-- Split at the last occurrence of a byte. -/
def rsplitOnce (c : UInt8) (s : Bytes) : Option (Bytes × Bytes) :=
  (splitOnce c s.reverse).map fun (u, v) => (v.reverse, u.reverse)

lemma splitBy_ne_nil (p : UInt8 → Bool) (s : Bytes) : splitBy p s ≠ [] := by
  cases s with
    simp [splitBy]
  | cons b s =>
    unfold splitBy
    split
    · simp
    · split <;> simp

/-- A piece is a stretch of the text without separators. -/
lemma split_of_mem_splitBy (h : w ∈ splitBy p s) :
    ∃ a c, s = a ++ w ++ c ∧ ∀ b ∈ w, p b = false := by
  have hall : (∀ v vs, splitBy p s = v :: vs →
      ∃ c, s = v ++ c ∧ ∀ b ∈ v, p b = false) ∧
      ∀ v ∈ splitBy p s, ∃ a c, s = a ++ v ++ c ∧ ∀ b ∈ v, p b = false := by
    clear h
    induction s with
    | nil => simp [splitBy]
    | cons b s ih =>
      obtain ⟨ihhead, ihall⟩ := ih
      have hlater : ∀ v ∈ splitBy p s,
          ∃ a c, b :: s = a ++ v ++ c ∧ ∀ d ∈ v, p d = false := by
        intro v hv
        obtain ⟨a, c, heq, hp⟩ := ihall v hv
        exact ⟨b :: a, c, by rw [heq]; rfl, hp⟩
      rw [splitBy]
      by_cases hb : p b = true
      · rw [if_pos hb]
        refine ⟨?_, ?_⟩
        · rintro v vs heq
          obtain ⟨rfl, -⟩ := List.cons.inj heq
          exact ⟨b :: s, rfl, by simp⟩
        · intro v hv
          rcases mem_cons.mp hv with rfl | hv
          · exact ⟨[], b :: s, rfl, by simp⟩
          · exact hlater v hv
      · rw [if_neg hb]
        rw [Bool.not_eq_true] at hb
        cases hs : splitBy p s with
        | nil => exact absurd hs (splitBy_ne_nil p s)
        | cons w ws =>
          obtain ⟨c, heq, hp⟩ := ihhead w ws hs
          have hfirst : b :: s = (b :: w) ++ c ∧ ∀ d ∈ b :: w, p d = false := by
            refine ⟨by rw [heq]; rfl, ?_⟩
            intro d hd
            rcases mem_cons.mp hd with rfl | hd
            · exact hb
            · exact hp d hd
          refine ⟨?_, ?_⟩
          · rintro v vs heq
            obtain ⟨rfl, -⟩ := List.cons.inj heq
            exact ⟨c, hfirst⟩
          · intro v hv
            rcases mem_cons.mp hv with rfl | hv
            · exact ⟨[], c, hfirst⟩
            · exact hlater v (by rw [hs]; exact mem_cons_of_mem _ hv)
  exact hall.2 w h

lemma splitOnce_eq_none_iff (c : UInt8) (s : Bytes) : splitOnce c s = none ↔ c ∉ s := by
  induction s with
  | nil =>
    simp [splitOnce]
  | cons b s ih =>
    by_cases hb : b = c
    · subst hb
      simp [splitOnce]
    · have hbc : (b == c) = false := by simpa using hb
      simp only [splitOnce, hbc, Bool.false_eq_true, if_false,
        Option.map_eq_none_iff, ih, mem_cons, not_or]
      exact ⟨fun h => ⟨fun e => hb e.symm, h⟩, fun h => h.2⟩

/-- Position of the first byte that satisfies `p`. -/
def findByte (p : UInt8 → Bool) (s : Bytes) : Option Nat :=
  s.findIdx? p

/-- Position of the first occurrence of a byte string. -/
def findStr (p : Bytes) : Bytes → Option Nat
  | [] => if p.isEmpty then some 0 else none
  | b :: s =>
    if startsWith p (b :: s) then some 0
    else (findStr p s).map (· + 1)

lemma findStr_eq_some (h : findStr p s = some n) :
    ∃ a c, s = a ++ p ++ c ∧ a.length = n := by
  induction s generalizing n with
  | nil =>
    rw [findStr] at h
    split at h
    · next hp =>
      cases h
      exact ⟨[], [], by simpa using hp, rfl⟩
    · cases h
  | cons b s ih =>
    rw [findStr] at h
    split at h
    · next hp =>
      cases h
      obtain ⟨r, hr⟩ := Option.isSome_iff_exists.mp hp
      exact ⟨[], r, (stripPrefix_eq_some_iff p (b :: s) r).mp hr, rfl⟩
    · obtain ⟨k, hk, rfl⟩ := Option.map_eq_some_iff.mp h
      obtain ⟨a, c, rfl, rfl⟩ := ih hk
      exact ⟨b :: a, c, rfl, rfl⟩

/-- The lines of a text. A line feed ends a line, with the carriage return
before it; a last line without one is kept as it is, unless it is empty. -/
def lines (s : Bytes) : List Bytes :=
  let pieces := splitBy (· == 10) s
  let ended := pieces.dropLast.map fun w => (stripSuffix [13] w).getD w
  match pieces.getLast? with
  | none | some [] => ended
  | some w => ended ++ [w]

/-- Length of the white-space character at the head of a UTF-8 string, zero
when there is none. The multi-byte cases are U+0085, U+00A0, U+1680,
U+2000–U+200A, U+2028, U+2029, U+202F, U+205F and U+3000. -/
def whitespaceWidth : Bytes → Nat
  | 0xC2 :: b :: _ =>
    if b == 0x85 || b == 0xA0 then 2 else 0
  | 0xE1 :: 0x9A :: 0x80 :: _ => 3
  | 0xE2 :: 0x80 :: b :: _ =>
    if (0x80 ≤ b && b ≤ 0x8A) || b == 0xA8 || b == 0xA9 || b == 0xAF
    then 3 else 0
  | 0xE2 :: 0x81 :: 0x9F :: _ => 3
  | 0xE3 :: 0x80 :: 0x80 :: _ => 3
  | b :: _ => if (9 ≤ b && b ≤ 13) || b == 32 then 1 else 0
  | [] => 0

/-- The same test at the end of a string, read backwards. -/
def whitespaceWidthRev : Bytes → Nat
  | 0x80 :: 0x9A :: 0xE1 :: _ => 3
  | 0x80 :: 0x80 :: 0xE3 :: _ => 3
  | 0x9F :: 0x81 :: 0xE2 :: _ => 3
  | b :: 0x80 :: 0xE2 :: _ =>
    if (0x80 ≤ b && b ≤ 0x8A) || b == 0xA8 || b == 0xA9 || b == 0xAF
    then 3 else 0
  | b :: 0xC2 :: _ =>
    if b == 0x85 || b == 0xA0 then 2 else 0
  | b :: _ => if (9 ≤ b && b ≤ 13) || b == 32 then 1 else 0
  | [] => 0

/-- Drop leading characters while `width` recognises one. The fuel is the
length of the string: every round drops at least one byte. -/
def trimWith (width : Bytes → Nat) : Nat → Bytes → Bytes
  | 0, s => s
  | fuel + 1, s =>
    match width s with
    | 0 => s
    | n + 1 => trimWith width fuel (s.drop (n + 1))

/-- Drop leading white space. -/
def trimStart (s : Bytes) : Bytes :=
  trimWith whitespaceWidth s.length s

/-- Drop trailing white space. -/
def trimEnd (s : Bytes) : Bytes :=
  (trimWith whitespaceWidthRev s.length s.reverse).reverse

/-- Drop white space on both sides. -/
def trim (s : Bytes) : Bytes :=
  trimEnd (trimStart s)

/-- Cut a string into maximal runs without white space. `run` is the run being
read, backwards; the fuel is the length of the string. -/
def splitWhitespaceFrom : Nat → Bytes → Bytes → List Bytes
  | 0, run, _ => if run.isEmpty then [] else [run.reverse]
  | fuel + 1, run, s =>
    match s with
    | [] => if run.isEmpty then [] else [run.reverse]
    | b :: rest =>
      match whitespaceWidth s with
      | 0 => splitWhitespaceFrom fuel (b :: run) rest
      | n + 1 =>
        (if run.isEmpty then [] else [run.reverse]) ++
          splitWhitespaceFrom fuel [] (s.drop (n + 1))

/-- The words of a string, between Unicode white space. -/
def splitWhitespace (s : Bytes) : List Bytes :=
  splitWhitespaceFrom s.length [] s

end FastAdHunter.Lib
