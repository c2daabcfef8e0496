import FastAdHunter.Lib.Wildcard
import FastAdHunter.Rules.UrlTier.Pattern

/-!
# The pattern matcher is exact

The loop decides the declarative meaning of a pattern, and so do all its
entries together under the allowance of one rule. An entry either fails before
its first `*`, for one unit, or settles every later start; so a rule that
matches has spent at most one unit for each byte when it is found.
-/

namespace FastAdHunter.Rules

open Lib Wildcard
open List hiding after next

section Meaning

/-- A pattern byte as an element: `*` and `^` are the two that are not
literal. -/
def elemOf (matchCase : Bool) (pb : UInt8) : Elem UInt8 :=
  if pb == ch '*' then .star
  else if pb == ch '^' then .one isSeparator true
  else .one (fun tb => byteMatches pb tb matchCase) false

def elems (matchCase : Bool) (pattern : Bytes) : List (Elem UInt8) :=
  pattern.map (elemOf matchCase)

def starElems (matchCase : Bool) (star : Star) : Backtrack UInt8 :=
  star.map fun s => (elems matchCase s.1, s.2)

/-- How often the last `*` can still be widened. -/
def width (star : Star) (text : Bytes) : Nat :=
  match star with
  | none => text.length
  | some (_, tried) => tried.length

/-- What holds at the head of the loop for a pattern of length `n`. -/
structure LoopInv (matchCase : Bool) (n : Nat) (pattern text : Bytes) (star : Star) :
    Prop where
  reached : Reached (starElems matchCase star) (elems matchCase pattern) text
  short : pattern.length ≤ n
  back : ∀ after tried, star = some (after, tried) →
    after.length ≤ n ∧ text.length ≤ tried.length

variable {endAnchored matchCase : Bool} {pattern text : Bytes} {star : Star}
variable {budget budget' : Budget} {n : Nat}

lemma elemOf_literal (hs : (pb == ch '*') = false) (hc : (pb == ch '^') = false) :
    elemOf matchCase pb = .one (fun tb => byteMatches pb tb matchCase) false := by
  rw [elemOf, hs, hc]
  rfl

variable {pattern' text' : Bytes} {star' : Star}

/-- One byte of the pattern is passed: a `*` is remembered, any other byte consumes what it
stands for. -/
def Passes (endAnchored matchCase : Bool) (pattern text : Bytes) (star : Star)
    (pattern' text' : Bytes) (star' : Star) : Prop :=
  ∃ pb, pattern = pb :: pattern' ∧
    ((elemOf matchCase pb = .star ∧ text' = text ∧ star' = some (pattern', text)) ∨
      (elemOf matchCase pb ≠ .star ∧ star' = star ∧ Consumes [elemOf matchCase pb] text text' ∧
        (Matches endAnchored (elems matchCase pattern) text ↔
          Matches endAnchored (elems matchCase pattern') text')))

lemma Passes.one (hel : elemOf matchCase pb = .one p atEnd) (hc : Consumes [.one p atEnd] text text')
    (hm : Matches endAnchored (.one p atEnd :: elems matchCase rest) text ↔
      Matches endAnchored (elems matchCase rest) text') :
    Passes endAnchored matchCase (pb :: rest) text star rest text' star :=
  ⟨pb, rfl, .inr ⟨by simp [hel], rfl, hel ▸ hc, by rwa [elems, map_cons, hel]⟩⟩

/-- What one step of the loop does, and what it says about the text. -/
lemma matchStep_spec (endAnchored matchCase : Bool) (pattern text : Bytes) (star : Star) :
    match matchStep endAnchored matchCase pattern text star with
    | .accept => Matches endAnchored (elems matchCase pattern) text
    | .stuck => ¬ Matches endAnchored (elems matchCase pattern) text
    | .go pattern' text' star' =>
      Passes endAnchored matchCase pattern text star pattern' text' star' := by
  cases pattern with
  | nil =>
    by_cases hend : (!endAnchored || text.isEmpty) = true
    · rw [matchStep, if_pos hend]
      refine matches_nil.mpr fun he => ?_
      subst he
      simpa using hend
    · rw [matchStep, if_neg hend]
      intro hm
      simp only [Bool.or_eq_true, Bool.not_eq_true', List.isEmpty_iff, not_or,
        Bool.not_eq_false] at hend
      exact hend.2 (matches_nil.mp hm hend.1)
  | cons pb rest =>
    simp only [matchStep]
    by_cases hs : (pb == ch '*') = true
    · rw [if_pos hs]
      exact ⟨pb, rfl, .inl ⟨by rw [elemOf, if_pos hs], rfl, rfl⟩⟩
    rw [if_neg hs]
    rw [Bool.not_eq_true] at hs
    by_cases hc : (pb == ch '^') = true
    · have hel : elemOf matchCase pb = .one isSeparator true := by
        rw [elemOf, hs, hc]
        rfl
      rw [if_pos hc]
      cases text with
      | nil => exact .one hel (.atEnd (.nil [])) (by simp [matches_one_nil])
      | cons tb text =>
        by_cases hsep : isSeparator tb = true
        · simp only [if_pos hsep]
          exact .one hel (.one hsep (.nil _)) (by simp [matches_one_cons, hsep])
        · simp only [if_neg hsep]
          rw [elems, map_cons, hel, matches_one_cons]
          exact fun hm => hsep hm.1
    · rw [if_neg hc]
      rw [Bool.not_eq_true] at hc
      have hel := @elemOf_literal matchCase pb hs hc
      cases text with
      | nil =>
        rw [elems, map_cons, hel, matches_one_nil]
        exact fun hm => Bool.noConfusion hm.1
      | cons tb text =>
        by_cases hbyte : byteMatches pb tb matchCase = true
        · simp only [if_pos hbyte]
          exact .one hel (.one hbyte (.nil _)) (by simp [matches_one_cons, hbyte])
        · simp only [if_neg hbyte]
          rw [elems, map_cons, hel, matches_one_cons]
          exact fun hm => hbyte hm.1

lemma matchStep_go
    (h : matchStep endAnchored matchCase pattern text star = .go pattern' text' star') :
    Passes endAnchored matchCase pattern text star pattern' text' star' := by
  simpa only [h] using matchStep_spec endAnchored matchCase pattern text star

lemma matchStep_go_pending
    (hreached : Reached (starElems matchCase star) (elems matchCase pattern) text)
    (h : matchStep endAnchored matchCase pattern text star = .go pattern' text' star') :
    (Pending endAnchored (starElems matchCase star) (elems matchCase pattern) text ↔
      Pending endAnchored (starElems matchCase star') (elems matchCase pattern') text') ∧
    Reached (starElems matchCase star') (elems matchCase pattern') text' := by
  obtain ⟨pb, rfl, ⟨hel, rfl, rfl⟩ | ⟨hel, rfl, hc, hm⟩⟩ := matchStep_go h
  · rw [elems, map_cons, hel] at hreached ⊢
    exact ⟨pending_star hreached, [], rfl, by simp [Starless], .nil _⟩
  · refine ⟨pending_congr hm, ?_⟩
    cases star' with
    | none => trivial
    | some s =>
      obtain ⟨done, hsplit, hdone, hcons⟩ := hreached
      refine ⟨done ++ [elemOf matchCase pb], ?_, ?_, consumes_append.mpr ⟨text, hcons, hc⟩⟩
      · rw [hsplit, elems, map_cons]
        simp [elems]
      · intro e he
        rcases mem_append.mp he with he | he
        · exact hdone e he
        · rw [mem_singleton.mp he]
          exact hel

lemma matchStep_go_width (hinv : LoopInv matchCase n pattern text star)
    (h : matchStep endAnchored matchCase pattern text star = .go pattern' text' star') :
    LoopInv matchCase n pattern' text' star' ∧
      pattern.length = pattern'.length + 1 ∧ width star' text' ≤ width star text := by
  have hreached := (matchStep_go_pending hinv.reached h).2
  have hshort := hinv.short
  obtain ⟨pb, rfl, ⟨-, rfl, rfl⟩ | ⟨-, rfl, hc, -⟩⟩ := matchStep_go h
  · rw [length_cons] at hshort
    refine ⟨⟨hreached, by omega, ?_⟩, rfl, ?_⟩
    · rintro after tried heq
      cases heq
      exact ⟨by omega, le_rfl⟩
    · cases star with
      | none => exact le_rfl
      | some s => exact (hinv.back s.1 s.2 rfl).2
  · rw [length_cons] at hshort
    have hle := hc.suffix.length_le
    refine ⟨⟨hreached, by omega, ?_⟩, rfl, ?_⟩
    · rintro after tried heq
      have := hinv.back after tried heq
      exact ⟨this.1, hle.trans this.2⟩
    · cases star' with
      | none => exact hle
      | some s => exact le_rfl

lemma findLiteral_spec
    (endAnchored matchCase : Bool) (pb : UInt8) (rest : List (Elem UInt8)) (text : Bytes) :
    match findLiteral text pb matchCase with
    | some next => next <:+ text ∧ ∀ t', t' <:+ text → next.length < t'.length →
        ¬ Matches endAnchored (.one (fun tb => byteMatches pb tb matchCase) false :: rest) t'
    | none => ∀ t', t' <:+ text →
        ¬ Matches endAnchored
          (.one (fun tb => byteMatches pb tb matchCase) false :: rest) t' := by
  induction text with
  | nil =>
    intro t' ht' hm
    rw [suffix_nil.mp ht'] at hm
    cases (matches_one_nil.mp hm).1
  | cons b text ih =>
    by_cases hb : isCandidate pb matchCase b = true
    · have hfind : findLiteral (b :: text) pb matchCase = some (b :: text) := by
        simp [findLiteral, hb]
      rw [hfind]
      refine ⟨suffix_rfl, ?_⟩
      intro t' ht' hlt
      exact absurd ht'.length_le (by omega)
    · have hfind : findLiteral (b :: text) pb matchCase =
          findLiteral text pb matchCase := by
        simp [findLiteral, hb]
      have hnot : ¬ Matches endAnchored
          (.one (fun tb => byteMatches pb tb matchCase) false :: rest) (b :: text) := by
        intro hm
        exact hb (isCandidate_of_byteMatches matchCase b pb (matches_one_cons.mp hm).1)
      rw [hfind]
      cases hf : findLiteral text pb matchCase with
      | none =>
        rw [hf] at ih
        intro t' ht'
        rcases suffix_cons_iff.mp ht' with rfl | ht'
        · exact hnot
        · exact ih t' ht'
      | some next =>
        rw [hf] at ih
        refine ⟨ih.1.trans (suffix_cons b text), ?_⟩
        intro t' ht' hlt
        rcases suffix_cons_iff.mp ht' with rfl | ht'
        · exact hnot
        · exact ih.2 t' ht' hlt

lemma resume_spec (endAnchored matchCase : Bool) (after tried : Bytes) :
    match resume matchCase after tried with
    | some next => next <:+ tried ∧ ∀ t', t' <:+ tried → next.length < t'.length →
        ¬ Matches endAnchored (elems matchCase after) t'
    | none => ∀ t', t' <:+ tried → ¬ Matches endAnchored (elems matchCase after) t' := by
  have hstay : tried <:+ tried ∧ ∀ t', t' <:+ tried → tried.length < t'.length →
      ¬ Matches endAnchored (elems matchCase after) t' :=
    ⟨suffix_rfl, fun t' ht' hlt => absurd ht'.length_le (by omega)⟩
  cases after with
  | nil => exact hstay
  | cons literal rest =>
    by_cases hlit : (literal != ch '*' && literal != ch '^') = true
    · have hne : literal ≠ ch '*' ∧ literal ≠ ch '^' := by simpa using hlit
      simp only [resume, if_pos hlit]
      rw [elems, map_cons,
        elemOf_literal (by simpa using hne.1) (by simpa using hne.2)]
      exact findLiteral_spec endAnchored matchCase literal _ tried
    · simp only [resume, if_neg hlit]
      exact hstay

lemma spend_eq_true (h : 0 < budget.allowance) :
    budget.spend = (true, { budget with remaining := budget.remaining - 1 }) := by
  rw [Budget.spend, if_neg (by rw [Budget.allowance] at h; omega)]

lemma reached_self (after next : Bytes) :
    Reached (starElems matchCase (some (after, next))) (elems matchCase after) next :=
  ⟨[], rfl, by simp [Starless], .nil _⟩

lemma widen_some (hstuck : ¬ Matches endAnchored (elems matchCase pattern) text)
    (h : widen matchCase star budget = (some (after, next), budget')) :
    ∃ b tried, star = some (after, b :: tried) ∧ next.length ≤ tried.length ∧
      budget' = { budget with remaining := budget.remaining - 1 } ∧
      (Pending endAnchored (starElems matchCase star) (elems matchCase pattern) text ↔
        Pending endAnchored (starElems matchCase (some (after, next)))
          (elems matchCase after) next) := by
  rcases star with - | ⟨after', - | ⟨b, tried⟩⟩
  · cases h
  · cases h
  · have hresume := resume_spec endAnchored matchCase after' tried
    simp only [widen, Budget.spend] at h
    split at h
    · cases h
    · next heq =>
      split at heq
      · cases heq
      · cases heq
        cases hr : resume matchCase after' tried with
        | none =>
          rw [hr] at h
          cases h
        | some next' =>
          rw [hr] at h hresume
          cases h
          exact ⟨b, tried, rfl, hresume.1.length_le, rfl,
            (pending_widen hstuck).trans (pending_skip hresume.1 hresume.2)⟩

lemma widen_none (hstuck : ¬ Matches endAnchored (elems matchCase pattern) text)
    (hroom : width star text ≤ budget.allowance)
    (h : widen matchCase star budget = (none, budget')) :
    ¬ Pending endAnchored (starElems matchCase star) (elems matchCase pattern) text := by
  rcases star with - | ⟨after, - | ⟨b, tried⟩⟩
  · rintro (hm | ⟨_, _, heq, -⟩)
    · exact hstuck hm
    · cases heq
  · rintro (hm | ⟨_, _, heq, t', -, hlt, -⟩)
    · exact hstuck hm
    · cases heq
      exact Nat.not_lt_zero _ hlt
  · have hresume := resume_spec endAnchored matchCase after tried
    simp only [width, length_cons] at hroom
    simp only [widen, spend_eq_true (show 0 < budget.allowance by omega)] at h
    cases hr : resume matchCase after tried with
    | some next =>
      rw [hr] at h
      cases h
    | none =>
      rw [hr] at hresume
      intro hp
      rcases (pending_widen hstuck).mp hp with hm | ⟨_, _, heq, t', ht', -, hm⟩
      · exact hresume tried suffix_rfl hm
      · cases heq
        exact hresume t' ht' hm

/-- What matching a rule may do to an allowance: it shrinks, to no less
than its floor. -/
structure Charges (before after : Budget) : Prop where
  floor : after.floor = before.floor
  le : after.remaining ≤ before.remaining
  above : before.floor ≤ before.remaining → before.floor ≤ after.remaining
  worn : before.exhausted = true → after.exhausted = true

lemma Charges.refl (budget : Budget) : Charges budget budget :=
  ⟨rfl, le_rfl, id, id⟩

lemma Charges.trans (hab : Charges a b) (hbc : Charges b c) :
    Charges a c where
  floor := hbc.floor.trans hab.floor
  le := hbc.le.trans hab.le
  above h := hab.floor ▸ hbc.above (hab.floor.symm ▸ hab.above h)
  worn h := hbc.worn (hab.worn h)

/-- A computation that touches the allowance only by spending from it. -/
inductive Metered : {α : Type} → (Budget → α × Budget) → Prop
  | pure {α : Type} (a : α) : Metered fun budget => (a, budget)
  | spend : Metered Budget.spend
  | bind {α β : Type} {f : Budget → β × Budget} {g : β → Budget → α × Budget}
      (hf : Metered f) (hg : ∀ x, Metered (g x)) :
      Metered fun budget => g (f budget).1 (f budget).2

namespace Metered

variable {α : Type} {f : Budget → α × Budget}

lemma congr (h : Metered g) (heq : ∀ budget, f budget = g budget) :
    Metered f :=
  funext heq ▸ h

lemma branch
    (htest : Metered test) (hno : Metered no) (hyes : Metered yes) (hf : ∀ budget, f budget =
      match test budget with
      | (false, budget) => no budget
      | (true, budget) => yes budget) : Metered f := by
  refine (Metered.bind (g := fun ok => bif ok then yes else no) htest ?_).congr fun budget => ?_
  · intro ok
    cases ok <;> assumption
  · rw [hf]
    rcases test budget with ⟨- | -, rest⟩ <;> rfl

lemma charges (h : Metered f) (budget : Budget) : Charges budget (f budget).2 := by
  induction h generalizing budget with
  | pure a => exact .refl budget
  | spend =>
    rw [Budget.spend]
    split
    · exact ⟨rfl, le_rfl, id, fun _ => rfl⟩
    · refine ⟨rfl, Nat.sub_le _ _, fun h => ?_, id⟩
      dsimp only
      omega
  | bind _ _ ihf ihg => exact (ihf budget).trans (ihg _ _)

/-- **An allowance that is not used up does not matter**: with more of it the
computation comes to the same. -/
theorem more (h : Metered f) (budget : Budget) (n : Nat) :
    ((f budget).2.exhausted = true ∧ (f budget).2.remaining ≤ budget.floor) ∨
      f { budget with remaining := budget.remaining + n } =
        ((f budget).1, { (f budget).2 with remaining := (f budget).2.remaining + n }) := by
  induction h generalizing budget with
  | pure a => exact .inr rfl
  | spend =>
    by_cases hrun : budget.remaining ≤ budget.floor
    · left
      rw [Budget.spend, if_pos hrun]
      exact ⟨rfl, hrun⟩
    · right
      rw [Budget.spend, if_neg (by dsimp only; omega), Budget.spend, if_neg hrun]
      simp only [Prod.mk.injEq, Budget.mk.injEq, and_true, true_and]
      omega
  | bind hf hg ihf ihg =>
    next f g =>
      have hcharges := (hg (f budget).1).charges (f budget).2
      rcases ihf budget with ⟨hworn, hused⟩ | hfirst
      · exact .inl ⟨hcharges.worn hworn, hcharges.le.trans hused⟩
      · beta_reduce
        rw [hfirst, ← (hf.charges budget).floor]
        exact ihg _ (f budget).2

end Metered

lemma metered_widen (matchCase : Bool) (star : Star) : Metered (widen matchCase star) := by
  rcases star with - | ⟨after, - | ⟨b, tried⟩⟩
  · exact .pure none
  · exact .pure none
  · exact .branch .spend (.pure none) (.pure _) fun _ => rfl

lemma matchLoop_sound (hreached : Reached (starElems matchCase star) (elems matchCase pattern) text)
    (h : (matchLoop endAnchored matchCase fuel pattern text star budget).1 = true) :
    Pending endAnchored (starElems matchCase star) (elems matchCase pattern) text := by
  induction fuel generalizing pattern text star budget with
  | zero => cases h
  | succ fuel ih =>
    have hspec := matchStep_spec endAnchored matchCase pattern text star
    rw [matchLoop] at h
    cases hstep : matchStep endAnchored matchCase pattern text star with
    | accept =>
      rw [hstep] at hspec
      exact .inl hspec
    | go pattern' text' star' =>
      rw [hstep] at h
      obtain ⟨hiff, hreached'⟩ := matchStep_go_pending hreached hstep
      exact hiff.mpr (ih hreached' h)
    | stuck =>
      rw [hstep] at h hspec
      rcases hw : widen matchCase star budget with ⟨- | ⟨after, next⟩, spent⟩
      · rw [hw] at h
        cases h
      · rw [hw] at h
        obtain ⟨-, -, -, -, -, hiff⟩ := widen_some hspec hw
        exact hiff.mpr (ih (reached_self after next) h)

lemma matchLoop_complete (hinv : LoopInv matchCase n pattern text star)
    (hfuel : width star text * (n + 1) + pattern.length < fuel)
    (hroom : width star text ≤ budget.allowance)
    (hpending : Pending endAnchored (starElems matchCase star) (elems matchCase pattern) text) :
    (matchLoop endAnchored matchCase fuel pattern text star budget).1 = true := by
  induction fuel generalizing pattern text star budget with
  | zero => exact absurd hfuel (Nat.not_lt_zero _)
  | succ fuel ih =>
    rw [matchLoop]
    cases hstep : matchStep endAnchored matchCase pattern text star with
    | accept => rfl
    | go pattern' text' star' =>
      obtain ⟨hinv', hlen, hwidth⟩ := matchStep_go_width hinv hstep
      have hmul := Nat.mul_le_mul_right (n + 1) hwidth
      exact ih hinv' (by omega) (hwidth.trans hroom)
        ((matchStep_go_pending hinv.reached hstep).1.mp hpending)
    | stuck =>
      have hstuck := matchStep_spec endAnchored matchCase pattern text star
      rw [hstep] at hstuck
      rcases hw : widen matchCase star budget with ⟨- | ⟨after, next⟩, spent⟩
      · exact absurd hpending (widen_none hstuck hroom hw)
      · obtain ⟨b, tried, rfl, hnext, rfl, hiff⟩ := widen_some hstuck hw
        have hafter := (hinv.back after _ rfl).1
        have hmul := Nat.mul_le_mul_right (n + 1) hnext
        simp only [width, length_cons, Nat.add_mul] at hroom hfuel
        refine ih ⟨reached_self after next, hafter, ?_⟩ ?_ ?_ (hiff.mp hpending)
        · intro a t ha
          cases ha
          exact ⟨hafter, le_rfl⟩
        · simp only [width]
          omega
        · simp only [width, Budget.allowance] at hroom ⊢
          omega

lemma metered_matchLoop (endAnchored matchCase : Bool) (fuel : Nat) (pattern text : Bytes)
    (star : Star) : Metered (matchLoop endAnchored matchCase fuel pattern text star) := by
  induction fuel generalizing pattern text star with
  | zero => exact .pure false
  | succ fuel ih =>
    cases hstep : matchStep endAnchored matchCase pattern text star with
    | accept => exact (Metered.pure true).congr fun budget => by rw [matchLoop, hstep]
    | go pattern' text' star' =>
      exact (ih pattern' text' star').congr fun budget => by rw [matchLoop, hstep]
    | stuck =>
      refine (Metered.bind (g := fun next => next.elim (Prod.mk false) fun next =>
        matchLoop endAnchored matchCase fuel next.1 next.2 (some next))
        (metered_widen matchCase star) fun next => ?_).congr fun budget => ?_
      · cases next with
        | none => exact .pure false
        | some next => exact ih _ _ _
      · rw [matchLoop, hstep]
        rcases widen matchCase star budget with ⟨- | next, spent⟩ <;> rfl

lemma matchLoop_free (endAnchored matchCase : Bool) (fuel : Nat) (pattern text : Bytes)
    (budget : Budget) : (matchLoop endAnchored matchCase fuel pattern text none budget).2 = budget ∨
      ∃ done rest u, elems matchCase pattern = done ++ .star :: rest ∧ Starless done ∧
        Consumes done text u := by
  induction fuel generalizing pattern text with
  | zero => exact .inl rfl
  | succ fuel ih =>
    rw [matchLoop]
    cases hstep : matchStep endAnchored matchCase pattern text none with
    | accept => exact .inl rfl
    | stuck => exact .inl rfl
    | go pattern' text' star' =>
      obtain ⟨pb, rfl, ⟨hel, -, -⟩ | ⟨hel, rfl, hc, -⟩⟩ := matchStep_go hstep
      · refine .inr ⟨[], elems matchCase pattern', text, ?_, by simp [Starless], .nil _⟩
        rw [elems, map_cons, hel]
        rfl
      · rcases ih pattern' text' with hfree | ⟨done, rest, u, hsplit, hdone, hu⟩
        · exact .inl hfree
        · refine .inr ⟨elemOf matchCase pb :: done, rest, u, ?_, ?_,
            consumes_append.mpr ⟨text', hc, hu⟩⟩
          · rw [elems, map_cons, ← elems, hsplit]
            rfl
          · intro e he
            rcases mem_cons.mp he with rfl | he
            · exact hel
            · exact hdone e he

/-- The declarative meaning of one entry. -/
def MatchesAt (pattern : Bytes) (endAnchored matchCase : Bool) (start : Bytes) : Prop :=
  Matches endAnchored (elems matchCase pattern) start

lemma matchFrom_sound (budget : Budget)
    (h : (matchFrom pattern text endAnchored matchCase budget).1 = true) :
    MatchesAt pattern endAnchored matchCase text := by
  rw [matchFrom] at h
  split at h
  · cases h
  · rcases matchLoop_sound (by trivial) h with hm | ⟨_, _, heq, -⟩
    · exact hm
    · cases heq

lemma matchFrom_complete (hroom : text.length < budget.allowance)
    (h : MatchesAt pattern endAnchored matchCase text) :
    (matchFrom pattern text endAnchored matchCase budget).1 = true := by
  rw [matchFrom, spend_eq_true (by omega)]
  refine matchLoop_complete (n := pattern.length) ⟨trivial, le_rfl, by simp⟩ ?_ ?_ (.inl h)
  · simp only [width]
    rw [Nat.add_mul]
    omega
  · simp only [width, Budget.allowance] at hroom ⊢
    omega

lemma metered_matchFrom (pattern text : Bytes) (endAnchored matchCase : Bool) :
    Metered (matchFrom pattern text endAnchored matchCase) :=
  .branch .spend (.pure false) (metered_matchLoop ..) fun _ => rfl

lemma matchFrom_failed (hroom : text.length < budget.allowance)
    (h : (matchFrom pattern text endAnchored matchCase budget).1 = false) :
    (matchFrom pattern text endAnchored matchCase budget).2.allowance + 1 = budget.allowance ∨
      ∀ later, later <:+ text → ¬ MatchesAt pattern endAnchored matchCase later := by
  have hno : ¬ MatchesAt pattern endAnchored matchCase text := by
    intro hm
    rw [matchFrom_complete hroom hm] at h
    cases h
  rw [matchFrom, spend_eq_true (by omega)]
  rcases matchLoop_free endAnchored matchCase
      ((text.length + 1) * (pattern.length + 1)) pattern text
      { budget with remaining := budget.remaining - 1 } with
    hfree | ⟨done, rest, u, hsplit, hdone, hu⟩
  · left
    rw [hfree]
    simp only [Budget.allowance] at hroom ⊢
    omega
  · right
    intro later hlater hm
    rw [MatchesAt, hsplit] at hm hno
    obtain ⟨r, hc, hr⟩ := Matches.of_later_start hdone hu hlater hm
    exact hno ⟨r, consumes_append.mpr ⟨u, hu, hc⟩, hr⟩

lemma tryStarts_sound (h : (tryStarts pattern endAnchored matchCase starts budget).1 = true) :
    ∃ s ∈ starts, MatchesAt pattern endAnchored matchCase s := by
  induction starts generalizing budget with
  | nil => cases h
  | cons start starts ih =>
    rw [tryStarts] at h
    rcases hm : matchFrom pattern start endAnchored matchCase budget with ⟨- | -, spent⟩
    · rw [hm] at h
      obtain ⟨s, hs, hmatch⟩ := ih h
      exact ⟨s, mem_cons_of_mem _ hs, hmatch⟩
    · exact ⟨start, mem_cons_self, matchFrom_sound budget (by rw [hm])⟩

lemma metered_tryStarts (pattern : Bytes) (endAnchored matchCase : Bool)
    (starts : List Bytes) : Metered (tryStarts pattern endAnchored matchCase starts) := by
  induction starts with
  | nil => exact .pure false
  | cons start starts ih =>
    refine .branch (metered_matchFrom pattern start endAnchored matchCase) ih (.pure true)
      fun budget => ?_
    rw [tryStarts]
    rcases matchFrom pattern start endAnchored matchCase budget with ⟨- | -, spent⟩ <;> rfl

/-- Starts in the order the matcher tries them: each one inside the one
before. -/
def Nested (starts : List Bytes) : Prop :=
  starts.Pairwise fun a b => b <:+ a ∧ b.length < a.length

/-- **Trying every start is exact**, with one unit for each byte and one for the
end of the text. -/
theorem tryStarts_iff (hnested : Nested starts) (hroom : ∀ s ∈ starts, s.length < budget.allowance) :
    (tryStarts pattern endAnchored matchCase starts budget).1 = true ↔
      ∃ s ∈ starts, MatchesAt pattern endAnchored matchCase s := by
  induction starts generalizing budget with
  | nil => simp [tryStarts]
  | cons start starts ih =>
    obtain ⟨hlater, hnested'⟩ := pairwise_cons.mp hnested
    have hstart := hroom start mem_cons_self
    rw [tryStarts]
    rcases hm : matchFrom pattern start endAnchored matchCase budget with ⟨- | -, spent⟩
    · have hfalse : (matchFrom pattern start endAnchored matchCase budget).1 = false := by
        rw [hm]
      have hno : ¬ MatchesAt pattern endAnchored matchCase start := by
        intro hmatch
        rw [matchFrom_complete hstart hmatch] at hfalse
        cases hfalse
      have htail : (∃ s ∈ start :: starts, MatchesAt pattern endAnchored matchCase s) ↔
          ∃ s ∈ starts, MatchesAt pattern endAnchored matchCase s := by
        simp [hno]
      rw [htail]
      rcases matchFrom_failed hstart hfalse with hcost | hsettled
      · rw [hm] at hcost
        refine ih hnested' fun s hs => ?_
        have := (hlater s hs).2
        simp only at hcost
        omega
      · -- no later start can match, and a start that is accepted does match
        refine iff_of_false ?_ ?_
        · intro htrue
          obtain ⟨s, hs, hmatch⟩ := tryStarts_sound htrue
          exact hsettled s (hlater s hs).1 hmatch
        · rintro ⟨s, hs, hmatch⟩
          exact hsettled s (hlater s hs).1 hmatch
    · refine iff_of_true rfl ⟨start, mem_cons_self, ?_⟩
      exact matchFrom_sound budget (by rw [hm])

end Meaning

section Anchored

variable {endAnchored matchCase : Bool} {pattern url : Bytes} {budget : Budget}

/-- Where a pattern may start: at the URL's start, at a label of the host, or
anywhere. -/
def StartsAt (anchor : UrlAnchor) (url : Bytes) (hostStart hostEnd : Nat) (start : Bytes) : Prop :=
  ∃ front, url = front ++ start ∧
    match anchor with
    | .start => front = []
    | .domain => front.length = hostStart ∨
        (hostStart < front.length ∧ front.length ≤ hostEnd ∧ front.getLast? = some (ch '.'))
    | .anywhere => True

def PatternMatches (anchor : UrlAnchor) (pattern url : Bytes) (hostStart hostEnd : Nat)
    (endAnchored matchCase : Bool) : Prop :=
  ∃ start, StartsAt anchor url hostStart hostEnd start ∧
    MatchesAt pattern endAnchored matchCase start

lemma mem_afterHostDots_iff (n : Nat) (s t : Bytes) :
    t ∈ afterHostDots n s ↔ ∃ front, s = front ++ ch '.' :: t ∧ front.length < n := by
  induction s generalizing n with
  | nil => cases n <;> simp [afterHostDots]
  | cons b s ih =>
    cases n with
    | zero => simp [afterHostDots]
    | succ n =>
      have hcons : (∃ front, b :: s = front ++ ch '.' :: t ∧ front.length < n + 1) ↔
          (b = ch '.' ∧ s = t) ∨ ∃ front, s = front ++ ch '.' :: t ∧ front.length < n := by
        constructor
        · rintro ⟨front, heq, hlt⟩
          cases front with
          | nil => exact .inl ⟨(List.cons.inj heq).1, (List.cons.inj heq).2⟩
          | cons c front =>
            rw [length_cons] at hlt
            exact .inr ⟨front, (List.cons.inj heq).2, by omega⟩
        · rintro (⟨rfl, rfl⟩ | ⟨front, rfl, hlt⟩)
          · exact ⟨[], rfl, Nat.succ_pos n⟩
          · exact ⟨b :: front, rfl, Nat.succ_lt_succ hlt⟩
      rw [hcons, afterHostDots]
      by_cases hb : b = ch '.'
      · rw [if_pos (by simp [hb]), mem_cons, ih n]
        simp [hb, eq_comm]
      · rw [if_neg (by simpa using hb), ih n]
        exact (or_iff_right fun h => hb h.1).symm

lemma mem_labelStarts_iff (hle : hostStart ≤ url.length) (s : Bytes) :
    s ∈ labelStarts url hostStart hostEnd ↔ StartsAt .domain url hostStart hostEnd s := by
  have hurl : url = url.take hostStart ++ url.drop hostStart :=
    (take_append_drop hostStart url).symm
  have htake : (url.take hostStart).length = hostStart := by simpa using hle
  rw [labelStarts, mem_cons, mem_afterHostDots_iff]
  constructor
  · rintro (rfl | ⟨front, hdrop, hlt⟩)
    · exact ⟨url.take hostStart, hurl, .inl htake⟩
    · refine ⟨url.take hostStart ++ front ++ [ch '.'], ?_, .inr ⟨?_, ?_, by simp⟩⟩
      · nth_rewrite 1 [hurl]
        simp [hdrop]
      all_goals
        simp only [length_append, length_singleton]
        omega
  · rintro ⟨front, heq, hlen | ⟨hlt, hend, hdot⟩⟩
    · left
      rw [heq, ← hlen, drop_left]
    · right
      obtain ⟨before, rfl⟩ := getLast?_eq_some_iff.mp hdot
      rw [length_append, length_singleton] at hlt hend
      refine ⟨before.drop hostStart, ?_, by simp; omega⟩
      rw [heq, append_assoc, drop_append_of_le_length (by omega)]
      rfl

lemma nested_tails (s : Bytes) : Nested s.tails := by
  induction s with
  | nil => exact pairwise_singleton _ _
  | cons b s ih =>
    refine pairwise_cons.mpr ⟨?_, ih⟩
    intro t ht
    have ht' := (mem_tails t s).mp ht
    exact ⟨ht'.trans (suffix_cons b s), by have := ht'.length_le; simp; omega⟩

lemma nested_afterHostDots (n : Nat) (s : Bytes) : Nested (afterHostDots n s) := by
  induction s generalizing n with
  | nil => cases n <;> exact List.Pairwise.nil
  | cons b s ih =>
    cases n with
    | zero => exact List.Pairwise.nil
    | succ n =>
      rw [afterHostDots]
      split
      · refine pairwise_cons.mpr ⟨?_, ih n⟩
        intro t ht
        obtain ⟨front, rfl, -⟩ := (mem_afterHostDots_iff n s t).mp ht
        exact ⟨⟨front ++ [ch '.'], by simp⟩, by simp; omega⟩
      · exact ih n

lemma nested_labelStarts (url : Bytes) (hostStart hostEnd : Nat) :
    Nested (labelStarts url hostStart hostEnd) := by
  refine pairwise_cons.mpr ⟨?_, nested_afterHostDots _ _⟩
  intro t ht
  obtain ⟨front, heq, -⟩ := (mem_afterHostDots_iff _ _ t).mp ht
  rw [heq]
  exact ⟨⟨front ++ [ch '.'], by simp⟩, by simp; omega⟩

lemma anywhereStarts_iff (first : UInt8) (rest url : Bytes) :
    (∃ s ∈ anywhereStarts url first matchCase, MatchesAt (first :: rest) endAnchored matchCase s) ↔
    ∃ s, s <:+ url ∧ MatchesAt (first :: rest) endAnchored matchCase s := by
  have hsub : ∀ {p : Bytes → Bool},
      (∀ s, MatchesAt (first :: rest) endAnchored matchCase s → p s = true) →
      ((∃ s ∈ url.tails.filter p, MatchesAt (first :: rest) endAnchored matchCase s) ↔
        ∃ s, s <:+ url ∧ MatchesAt (first :: rest) endAnchored matchCase s) := by
    intro p hp
    constructor
    · rintro ⟨s, hs, hm⟩
      exact ⟨s, (mem_tails s url).mp (mem_filter.mp hs).1, hm⟩
    · rintro ⟨s, hs, hm⟩
      exact ⟨s, mem_filter.mpr ⟨(mem_tails s url).mpr hs, hp s hm⟩, hm⟩
  rw [anywhereStarts]
  split
  · next hstar =>
    constructor
    · rintro ⟨s, hs, hm⟩
      rw [mem_singleton.mp hs] at hm
      exact ⟨url, suffix_rfl, hm⟩
    · rintro ⟨s, hs, hm⟩
      refine ⟨url, mem_singleton_self url, ?_⟩
      rw [MatchesAt, elems, map_cons, elemOf, if_pos hstar, matches_star_iff] at hm ⊢
      obtain ⟨t, ht, hm⟩ := hm
      exact ⟨t, ht.trans hs, hm⟩
  · next hstar =>
    rw [Bool.not_eq_true] at hstar
    split
    · next hsep =>
      apply hsub
      intro s hm
      rw [MatchesAt, elems, map_cons, elemOf, hstar, hsep] at hm
      cases s with
      | nil => rfl
      | cons b s => simpa using (matches_one_cons.mp hm).1
    · next hsep =>
      rw [Bool.not_eq_true] at hsep
      apply hsub
      intro s hm
      rw [MatchesAt, elems, map_cons, elemOf_literal hstar hsep] at hm
      cases s with
      | nil => cases (matches_one_nil.mp hm).1
      | cons b s =>
        exact isCandidate_of_byteMatches matchCase b first (matches_one_cons.mp hm).1

lemma nested_anywhereStarts (url : Bytes) (first : UInt8) (matchCase : Bool) :
    Nested (anywhereStarts url first matchCase) := by
  rw [anywhereStarts]
  split
  · exact pairwise_singleton _ _
  · split
    all_goals exact (nested_tails url).filter _

lemma length_le_of_mem_anywhereStarts
    (h : s ∈ anywhereStarts url first matchCase) : s.length ≤ url.length := by
  rw [anywhereStarts] at h
  split at h
  · rw [mem_singleton.mp h]
  · split at h
    all_goals exact ((mem_tails s url).mp (mem_filter.mp h).1).length_le

/-- **The pattern part of `check` is exact** under an allowance for the URL. -/
theorem matchPattern_iff (anchor : UrlAnchor)
    (hle : hostStart ≤ url.length) (hroom : url.length < budget.allowance) :
    (matchPattern anchor pattern url hostStart hostEnd endAnchored matchCase budget).1 = true ↔
    PatternMatches anchor pattern url hostStart hostEnd endAnchored matchCase := by
  cases anchor with
  | start =>
    rw [matchPattern, tryStarts_iff (pairwise_singleton _ _) (by simpa using hroom)]
    constructor
    · rintro ⟨s, hs, hm⟩
      rw [mem_singleton.mp hs] at hm
      exact ⟨url, ⟨[], rfl, rfl⟩, hm⟩
    · rintro ⟨s, ⟨front, rfl, rfl⟩, hm⟩
      exact ⟨s, mem_singleton_self s, hm⟩
  | domain =>
    rw [matchPattern, tryStarts_iff (nested_labelStarts url hostStart hostEnd)]
    · simp only [mem_labelStarts_iff hle]
      rfl
    · intro s hs
      obtain ⟨front, heq, -⟩ := (mem_labelStarts_iff hle s).mp hs
      rw [heq, length_append] at hroom
      omega
  | anywhere =>
    have hall : PatternMatches .anywhere pattern url hostStart hostEnd endAnchored
        matchCase ↔ ∃ s, s <:+ url ∧ MatchesAt pattern endAnchored matchCase s := by
      constructor
      · rintro ⟨s, ⟨front, heq, -⟩, hm⟩
        exact ⟨s, ⟨front, heq.symm⟩, hm⟩
      · rintro ⟨s, ⟨front, heq⟩, hm⟩
        exact ⟨s, ⟨front, heq.symm, trivial⟩, hm⟩
    rw [hall]
    cases pattern with
    | nil =>
      refine iff_of_true rfl ⟨[], nil_suffix, ?_⟩
      exact matches_nil.mpr fun _ => rfl
    | cons first rest =>
      rw [← anywhereStarts_iff, matchPattern]
      refine tryStarts_iff (nested_anywhereStarts url first matchCase) fun s hs => ?_
      exact lt_of_le_of_lt (length_le_of_mem_anywhereStarts hs) hroom

lemma metered_matchPattern (anchor : UrlAnchor) (pattern url : Bytes)
    (hostStart hostEnd : Nat) (endAnchored matchCase : Bool) :
    Metered (matchPattern anchor pattern url hostStart hostEnd endAnchored matchCase) := by
  cases anchor with
  | start | domain => exact metered_tryStarts ..
  | anywhere =>
    cases pattern with
    | nil => exact .pure true
    | cons first rest => exact metered_tryStarts ..

end Anchored

section Meaning

/-- Two bytes agree, up to case unless the rule matches case. -/
def SameByte (matchCase : Bool) (p t : UInt8) : Prop :=
  if matchCase then p = t else toLower p = toLower t

/-- What a pattern says about a text that starts where the pattern is tried:
`*` is any run of bytes, `^` is one separator or the end of the text, any other
byte stands for itself, and an end anchor leaves nothing over. -/
inductive Describes (endAnchored matchCase : Bool) : Bytes → Bytes → Prop
  | done {text : Bytes} :
      (endAnchored = true → text = []) → Describes endAnchored matchCase [] text
  | star {pattern text run rest : Bytes} :
      text = run ++ rest → Describes endAnchored matchCase pattern rest →
      Describes endAnchored matchCase (ch '*' :: pattern) text
  | separator {pattern text : Bytes} {b : UInt8} :
      isSeparator b = true → Describes endAnchored matchCase pattern text →
      Describes endAnchored matchCase (ch '^' :: pattern) (b :: text)
  | atEnd {pattern : Bytes} :
      Describes endAnchored matchCase pattern [] →
      Describes endAnchored matchCase (ch '^' :: pattern) []
  | literal {pattern text : Bytes} {p b : UInt8} :
      p ≠ ch '*' → p ≠ ch '^' → SameByte matchCase p b →
      Describes endAnchored matchCase pattern text →
      Describes endAnchored matchCase (p :: pattern) (b :: text)

variable {endAnchored matchCase : Bool}

lemma byteMatches_iff (hfold : matchCase = false → toLower p = p) (b : UInt8) :
    byteMatches p b matchCase = true ↔ SameByte matchCase p b := by
  cases matchCase with
  | true => simp [byteMatches, SameByte]
  | false => simp [byteMatches, SameByte, hfold rfl]

lemma describes_iff (hfold : matchCase = false → lower pattern = pattern) (text : Bytes) :
    MatchesAt pattern endAnchored matchCase text ↔
      Describes endAnchored matchCase pattern text := by
  induction pattern generalizing text with
  | nil =>
    rw [MatchesAt, elems, map_nil, matches_nil]
    exact ⟨.done, fun h => by cases h; assumption⟩
  | cons p pattern ih =>
    have hhead : matchCase = false → toLower p = p := fun h => by
      have := hfold h
      exact (List.cons.inj this).1
    have htail : matchCase = false → lower pattern = pattern := fun h => by
      have := hfold h
      exact (List.cons.inj this).2
    have ih := ih htail
    rw [MatchesAt, elems, map_cons, elemOf]
    split
    · next hstar =>
      rw [beq_iff_eq] at hstar
      subst hstar
      rw [matches_star_iff]
      constructor
      · rintro ⟨t, ⟨run, rfl⟩, hm⟩
        exact .star rfl ((ih t).mp hm)
      · intro h
        cases h with
        | star hrun h => exact ⟨_, ⟨_, hrun.symm⟩, (ih _).mpr h⟩
        | literal hne => exact absurd rfl hne
    · next hstar =>
      split
      · next hsep =>
        rw [beq_iff_eq] at hsep
        subst hsep
        cases text with
        | nil =>
          rw [matches_one_nil]
          constructor
          · exact fun h => .atEnd ((ih []).mp h.2)
          · intro h
            cases h with
            | atEnd h => exact ⟨rfl, (ih []).mpr h⟩
        | cons b text =>
          rw [matches_one_cons]
          constructor
          · exact fun h => .separator h.1 ((ih text).mp h.2)
          · intro h
            cases h with
            | separator hb h => exact ⟨hb, (ih text).mpr h⟩
            | literal _ hne => exact absurd rfl hne
      · next hsep =>
        rw [beq_iff_eq] at hstar hsep
        cases text with
        | nil =>
          rw [matches_one_nil]
          constructor
          · rintro ⟨h, -⟩
            cases h
          · intro h
            cases h with
            | star _ h => exact absurd rfl hstar
            | atEnd h => exact absurd rfl hsep
        | cons b text =>
          rw [matches_one_cons, byteMatches_iff hhead]
          constructor
          · exact fun h => .literal hstar hsep h.1 ((ih text).mp h.2)
          · intro h
            cases h with
            | star _ h => exact absurd rfl hstar
            | separator hb h => exact absurd rfl hsep
            | literal _ _ hb h => exact ⟨hb, (ih text).mpr h⟩

end Meaning

end FastAdHunter.Rules
