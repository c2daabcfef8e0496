import Mathlib.Tactic

/-!
# Scanners that may run short

A scanner consumes input from a reader and ends with a value or with an outcome
that stops it. A reader that has been cut off makes it stop short; on a reader that
goes on further, the same scanner goes on.
-/

namespace FastAdHunter.Lib

/-- Programs over a reader that can be stopped by an outcome. -/
def Scan (ρ ε α : Type) : Type :=
  ρ → Except ε α × ρ

namespace Scan

variable {ρ ε α β : Type}

def bind (m : Scan ρ ε α) (k : α → Scan ρ ε β) : Scan ρ ε β := fun r =>
  match m r with
  | (.ok a, r) => k a r
  | (.error e, r) => (.error e, r)

instance : Monad (Scan ρ ε) where
  pure a := fun r => (.ok a, r)
  bind := bind

def stop (e : ε) : Scan ρ ε α := fun r => (.error e, r)

/-- Look at the reader. -/
def get (f : ρ → α) : Scan ρ ε α := fun r => (.ok (f r), r)

/-- How a scanner that ends with an outcome ends. -/
def outcome (m : Scan ρ ε ε) (r : ρ) : ε :=
  match (m r).1 with
  | .ok e => e
  | .error e => e

section Steady

variable (short : ε) (cut : ρ → Prop) (R : ρ → ρ → Prop)

/-- The scanner stops short on a reader that is cut off, or does the same on every
reader that goes further. -/
def Steady (m : Scan ρ ε α) : Prop :=
  ∀ r r', R r r' →
    ((m r).1 = .error short ∧ cut (m r).2) ∨ ((m r).1 = (m r').1 ∧ R (m r).2 (m r').2)

variable {short cut R}

lemma Steady.pure (a : α) : Steady short cut R (Pure.pure a : Scan ρ ε α) :=
  fun _ _ h => .inr ⟨rfl, h⟩

lemma Steady.stop (e : ε) : Steady short cut R (stop e : Scan ρ ε α) :=
  fun _ _ h => .inr ⟨rfl, h⟩

lemma Steady.get (hf : ∀ r r', R r r' → f r = f r') :
    Steady short cut R (get f : Scan ρ ε α) :=
  fun r r' h => .inr ⟨congrArg Except.ok (hf r r' h), h⟩

lemma Steady.bind (hm : Steady short cut R m)
    (hk : ∀ a, Steady short cut R (k a)) : Steady short cut R (m >>= k) := by
  intro r r' h
  show ((Scan.bind m k r).1 = _ ∧ cut (Scan.bind m k r).2) ∨
    ((Scan.bind m k r).1 = (Scan.bind m k r').1 ∧ R (Scan.bind m k r).2 (Scan.bind m k r').2)
  obtain ⟨result, r₁, hr⟩ : ∃ result r₁, m r = (result, r₁) := ⟨_, _, rfl⟩
  obtain ⟨result', r₁', hr'⟩ : ∃ result r₁, m r' = (result, r₁) := ⟨_, _, rfl⟩
  have hfirst := hm r r' h
  simp only [hr, hr'] at hfirst
  rcases hfirst with ⟨rfl, hcut⟩ | ⟨rfl, hnext⟩
  · left
    simp only [Scan.bind, hr, true_and]
    exact hcut
  · cases result with
    | error e =>
      right
      simp only [Scan.bind, hr, hr', true_and]
      exact hnext
    | ok a =>
      simp only [Scan.bind, hr, hr']
      exact hk a r₁ r₁' hnext

/-- A scanner that ends with an outcome stops short, or ends with the same one. -/
lemma Steady.outcome (hm : Steady short cut R m) (h : R r r') :
    ((m r).1 = .error short ∧ cut (m r).2) ∨ (m.outcome r = m.outcome r' ∧ R (m r).2 (m r').2) := by
  rcases hm r r' h with hshort | ⟨hsame, hnext⟩
  · exact .inl hshort
  · exact .inr ⟨by rw [Scan.outcome, Scan.outcome, hsame], hnext⟩

end Steady

end Scan

end FastAdHunter.Lib
