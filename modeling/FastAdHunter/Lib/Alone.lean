import FastAdHunter.Lib.Prog

/-!
# A program by itself

A program that runs alone sees the state as its own last step left it. It can be
stopped after any step. The steps can be assumed to meet a condition on what the
environment does.
-/

namespace FastAdHunter.Lib

variable {Op : Type → Type} {σ ι α β ρ : Type}

section Alone

variable (M : Machine Op σ ι) (i : Nat) (C Φ : Label Op σ → Prop)

/-- Started in a state, with all steps meeting the condition `C`, the program
takes steps as `Φ` says and ends in `Q`. -/
def Alone (Q : α → σ → Prop) : Prog Op α → σ → Prop
  | .ret a, s => Q a s
  | @Prog.act _ _ β op next, s =>
    ∀ x b t, M.run op i x s = some (b, t) → C ⟨i, ⟨β, op⟩, b, s, t⟩ →
      Φ ⟨i, ⟨β, op⟩, b, s, t⟩ ∧ Alone Q (next b) t

variable {M i C Φ} {s : σ}

lemma Alone.mono (h : Alone M i C Φ Q p s) (hQ : ∀ a t, Q a t → Q' a t) : Alone M i C Φ Q' p s := by
  induction p generalizing s with
  | ret a => exact hQ a s h
  | act op next ih =>
    intro x b t hrun hC
    exact ⟨(h x b t hrun hC).1, ih b (h x b t hrun hC).2⟩

/-- One program after another. -/
lemma Alone.bind
    (h : Alone M i C Φ (fun a t => Alone M i C Φ Q (k a) t) p s) : Alone M i C Φ Q (p >>= k) s := by
  induction p generalizing s with
  | ret a => exact h
  | act op next ih =>
    intro x b t hrun hC
    exact ⟨(h x b t hrun hC).1, ih b (h x b t hrun hC).2⟩

/-- A program keeps what each of its accesses keeps. -/
lemma Alone.of_all
    (hstep : ∀ {δ : Type} (op : Op δ), P op → ∀ s x b t, A s → M.run op i x s = some (b, t) →
      C ⟨i, ⟨δ, op⟩, b, s, t⟩ → Φ ⟨i, ⟨δ, op⟩, b, s, t⟩ ∧ A t) (hp : p.All P) (hs : A s) : Alone M i C Φ (fun _ => A) p s := by
  induction p generalizing s with
  | ret a => exact hs
  | act op next ih =>
    intro x b t hrun hC
    obtain ⟨hΦ, ht⟩ := hstep op hp.1 s x b t hs hrun hC
    exact ⟨hΦ, ih b (hp.2 b) ht⟩

end Alone

section Performing

variable (M : Machine Op σ ι) (i : Nat) (x : ι)

/-- The result of a program, and the state it leaves. -/
def Prog.perform : Prog Op α → σ → Option (α × σ)
  | .ret a, s => some (a, s)
  | .act op next, s =>
    match M.run op i x s with
    | some (b, t) => perform (next b) t
    | none => none

variable {M i x} {s t : σ}

@[simp] lemma Prog.perform_ret (a : α) : (Prog.ret a : Prog Op α).perform M i x s = some (a, s) :=
  rfl

lemma Prog.perform_act (h : M.run op i x s = some (b, t)) :
    (Prog.act op next).perform M i x s = (next b).perform M i x t := by
  rw [Prog.perform, h]

/-- One program after another. -/
lemma Prog.perform_bind {k : α → Prog Op β}
    (h : p.perform M i x s = some (a, t)) : (p >>= k).perform M i x s = (k a).perform M i x t := by
  induction p generalizing s with
  | ret b =>
    cases h
    rfl
  | act op next ih =>
    rw [Prog.perform] at h
    rw [Prog.act_bind, Prog.perform]
    split at h
    next b u hrun => exact ih b h
    · cases h

end Performing

section Runs

variable {M : Machine Op σ ι} {C Φ : Label Op σ → Prop} {s : σ}

/-- The runs of one thread by itself. -/
lemma Pool.Run.alone {Q : ρ → σ → Prop} (hrun : Pool.Run M ⟨s, [p]⟩ labels c) (hC : ∀ l ∈ labels, C l)
    (h : Alone M 0 C Φ Q p s) :
    (∀ l ∈ labels, Φ l) ∧ ∃ p', c.threads = [p'] ∧ Alone M 0 C Φ Q p' c.state := by
  generalize hstart : (⟨s, [p]⟩ : Pool Op σ ρ) = start at hrun
  induction hrun generalizing s p with
  | nil _ =>
    subst hstart
    exact ⟨by simp, p, rfl, h⟩
  | @cons c c' i x β op next b t labels hi hop _ ih =>
    subst hstart
    have hi0 : i = 0 := by
      have hlt := (List.getElem?_eq_some_iff.mp hi).1
      simpa using hlt
    subst hi0
    cases hi
    obtain ⟨hl, hlabels⟩ := List.forall_mem_cons.mp hC
    obtain ⟨hΦ, hnext⟩ := h x b t hop hl
    obtain ⟨hrest, hend⟩ := ih hlabels hnext rfl
    exact ⟨List.forall_mem_cons.mpr ⟨hΦ, hrest⟩, hend⟩

/-- Where a run has come to: after its last step. -/
lemma Pool.Run.state_eq (hrun : Pool.Run M c labels c') :
    c'.state = (labels.getLast?.map Label.after).getD c.state := by
  induction hrun with
  | nil _ => rfl
  | @cons c c' i x β op next b t labels hi hop _ ih =>
    rw [ih, List.getLast?_cons]
    cases labels.getLast? <;> rfl

end Runs

end FastAdHunter.Lib
