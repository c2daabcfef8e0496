import Mathlib.Data.List.Basic
import Mathlib.Tactic

/-!
# Interleaved programs

A program is a tree of atomic accesses to a shared state: it performs an access
and continues with its result. Threads run their programs side by side, one
access at a time and in any order; what an access does can depend on the thread
that performs it and on a choice of the environment, and an access that cannot be
performed now, such as taking a lock that is held, makes its thread wait.
-/

namespace FastAdHunter.Lib

open List hiding after next

/-- Programs whose steps are atomic accesses to a shared state. -/
inductive Prog (Op : Type → Type) (α : Type) : Type 1 where
  | ret (a : α) : Prog Op α
  | act {β : Type} (op : Op β) (next : β → Prog Op α) : Prog Op α

namespace Prog

variable {Op : Type → Type} {α β γ : Type}

def bind : Prog Op α → (α → Prog Op β) → Prog Op β
  | ret a, k => k a
  | act op next, k => act op fun b => (next b).bind k

instance : Monad (Prog Op) where
  pure := ret
  bind := bind

instance : MonadLift Op (Prog Op) where
  monadLift op := act op ret

@[simp] lemma pure_eq (a : α) : (pure a : Prog Op α) = ret a := rfl

@[simp] lemma ret_bind (a : α) (k : α → Prog Op β) : ret a >>= k = k a := rfl

@[simp] lemma act_bind (op : Op δ) (next : δ → Prog Op α) (k : α → Prog Op β) :
    act op next >>= k = act op fun b => next b >>= k := rfl

@[simp] lemma lift_bind (op : Op α) (k : α → Prog Op β) :
    (liftM op : Prog Op α) >>= k = act op k := rfl

@[simp] lemma bind_assoc (p : Prog Op α) (k : α → Prog Op β) (l : β → Prog Op γ) :
    p >>= k >>= l = p >>= fun a => k a >>= l := by
  induction p with
  | ret a => rfl
  | act op next ih =>
    simp only [act_bind]
    congr 1
    funext b
    exact ih b

/-- The result of a program that has run to its end. -/
def result? : Prog Op α → Option α
  | ret a => some a
  | act _ _ => none

lemma eq_ret_of_result? (h : p.result? = some a) : p = ret a := by
  cases p with
  | ret b =>
    cases h
    rfl
  | act op next => cases h

/-- Every access the program can make is of this kind. -/
def All (P : {δ : Type} → Op δ → Prop) : Prog Op α → Prop
  | ret _ => True
  | act op next => P op ∧ ∀ b, (next b).All P

lemma All.bind {P : {δ : Type} → Op δ → Prop} {k : α → Prog Op β}
    (hp : p.All P) (hk : ∀ a, (k a).All P) : (p >>= k).All P := by
  induction p with
  | ret a => exact hk a
  | act op next ih => exact ⟨hp.1, fun b => ih b (hp.2 b)⟩

lemma All.mono {P P' : {δ : Type} → Op δ → Prop} {p : Prog Op α} (hp : p.All P)
    (h : ∀ {δ : Type} (op : Op δ), P op → P' op) : p.All P' := by
  induction p with
  | ret a => trivial
  | act op next ih => exact ⟨h op hp.1, fun b => ih b (hp.2 b)⟩

/-- Whatever the accesses answer, the result is of this kind. -/
def Returns (P : α → Prop) : Prog Op α → Prop
  | ret a => P a
  | act _ next => ∀ b, (next b).Returns P

lemma Returns.bind {P : α → Prop} {P' : β → Prop} {k : α → Prog Op β}
    (hp : p.Returns P) (hk : ∀ a, P a → (k a).Returns P') : (p >>= k).Returns P' := by
  induction p with
  | ret a => exact hk a hp
  | act op next ih => exact fun b => ih b (hp b)

lemma Returns.any (p : Prog Op α) : p.Returns fun _ => True := by
  induction p with
  | ret a => trivial
  | act op next ih => exact ih

end Prog

/-- What the accesses do: the thread that performs one, the choice of the
environment and the state give a result and the next state. -/
structure Machine (Op : Type → Type) (σ ι : Type) : Type 1 where
  run : {β : Type} → Op β → Nat → ι → σ → Option (β × σ)

/-- A shared state and the threads that run on it, each with the rest of its
program. -/
structure Pool (Op : Type → Type) (σ ρ : Type) where
  state : σ
  threads : List (Prog Op ρ)

/-- Who performed which access with which result, from where and to where. -/
structure Label (Op : Type → Type) (σ : Type) where
  thread : Nat
  access : Σ β : Type, Op β
  result : access.1
  before : σ
  after : σ

namespace Pool

variable {Op : Type → Type} {σ ι ρ : Type} (M : Machine Op σ ι)

/-- Thread `i` performs its next access. -/
def step (c : Pool Op σ ρ) (i : Nat) (x : ι) : Option (Label Op σ × Pool Op σ ρ) :=
  match c.threads[i]? with
  | some (@Prog.act _ _ β op next) =>
    (M.run op i x c.state).map fun r =>
      (⟨i, ⟨β, op⟩, r.1, c.state, r.2⟩, ⟨r.2, c.threads.set i (next r.1)⟩)
  | _ => none

def exec (c : Pool Op σ ρ) : List (Nat × ι) → Option (List (Label Op σ) × Pool Op σ ρ)
  | [] => some ([], c)
  | (i, x) :: schedule =>
    (c.step M i x).bind fun r => (r.2.exec schedule).map fun q => (r.1 :: q.1, q.2)

/-- The runs of a pool, with the steps taken. -/
inductive Run : Pool Op σ ρ → List (Label Op σ) → Pool Op σ ρ → Prop
  | nil (c : Pool Op σ ρ) : Run c [] c
  | cons {c c' : Pool Op σ ρ} {i : Nat} {x : ι} {β : Type} {op : Op β}
      {next : β → Prog Op ρ} {b : β} {s : σ} {labels : List (Label Op σ)} :
      c.threads[i]? = some (.act op next) → M.run op i x c.state = some (b, s) →
        Run ⟨s, c.threads.set i (next b)⟩ labels c' →
        Run c (⟨i, ⟨β, op⟩, b, c.state, s⟩ :: labels) c'

/-- Every thread has run to its end. -/
def Finished (c : Pool Op σ ρ) : Prop :=
  ∀ p ∈ c.threads, ∃ r, p = .ret r

variable {M}

variable {c c' : Pool Op σ ρ} {labels : List (Label Op σ)} {I : σ → Prop}

lemma run_of_exec (h : c.exec M schedule = some (labels, c')) :
    Run M c labels c' := by
  induction schedule generalizing c labels with
  | nil =>
    cases h
    exact .nil _
  | cons entry schedule ih =>
    obtain ⟨⟨l, c₁⟩, hstep, hrest⟩ := Option.bind_eq_some_iff.mp h
    obtain ⟨⟨labels', c''⟩, hexec, heq⟩ := Option.map_eq_some_iff.mp hrest
    cases heq
    rw [step] at hstep
    split at hstep
    · next β op next hi =>
      obtain ⟨⟨b, s⟩, hop, heq⟩ := Option.map_eq_some_iff.mp hstep
      cases heq
      exact .cons hi hop (ih hexec)
    · cases hstep

/-- A run that is found by following a schedule. -/
lemma exists_run (schedule : List (Nat × ι)) (P : List (Label Op σ) → Pool Op σ ρ → Prop)
    [∀ labels c', Decidable (P labels c')] {Q : List (Label Op σ) → Pool Op σ ρ → Prop}
    (h : (c.exec M schedule).any (fun r => P r.1 r.2) = true)
    (hQ : ∀ labels c', Run M c labels c' → P labels c' → Q labels c') :
    ∃ labels c', Run M c labels c' ∧ Q labels c' := by
  obtain ⟨r, hexec, hr⟩ := (Option.any_eq_true _ _).mp h
  have hrun := run_of_exec hexec
  exact ⟨r.1, r.2, hrun, hQ _ _ hrun (of_decide_eq_true hr)⟩

/-- Every step of a run is what its access does. -/
lemma Run.performs (hrun : Run M c labels c') :
    ∀ l ∈ labels, ∃ x, M.run l.access.2 l.thread x l.before = some (l.result, l.after) := by
  induction hrun with
  | nil _ => simp
  | cons _ hop _ ih => exact forall_mem_cons.mpr ⟨⟨_, hop⟩, ih⟩

lemma Run.threads_length (hrun : Run M c labels c') : c'.threads.length = c.threads.length := by
  induction hrun with
  | nil _ => rfl
  | cons _ _ _ ih => exact ih.trans (length_set ..)

/-- Every step is taken by a thread of the pool. -/
lemma Run.thread_lt (hrun : Run M c labels c') : ∀ l ∈ labels, l.thread < c.threads.length := by
  induction hrun with
  | nil _ => simp
  | cons hi _ _ ih =>
    refine forall_mem_cons.mpr ⟨(List.getElem?_eq_some_iff.mp hi).1, fun l hl => ?_⟩
    exact Nat.lt_of_lt_of_eq (ih l hl) (length_set ..)

/-- What every step preserves, every run preserves. -/
lemma Run.invariant
    (hstep : ∀ {β : Type} (op : Op β) i x s b t, I s → M.run op i x s = some (b, t) → I t) (hrun : Run M c labels c')
    (h : I c.state) : I c'.state ∧ ∀ l ∈ labels, I l.before := by
  induction hrun with
  | nil _ => exact ⟨h, by simp⟩
  | cons _ hop _ ih =>
    obtain ⟨hend, hlabels⟩ := ih (hstep _ _ _ _ _ _ h hop)
    refine ⟨hend, fun l hl => ?_⟩
    rcases mem_cons.mp hl with rfl | hl
    · exact h
    · exact hlabels l hl

lemma Run.invariant_along {C : Label Op σ → Prop} (hstep : ∀ (l : Label Op σ) x, I l.before → C l →
      M.run l.access.2 l.thread x l.before = some (l.result, l.after) → I l.after) (hrun : Run M c labels c')
    (hC : ∀ l ∈ labels, C l) (h : I c.state) : I c'.state ∧ ∀ l ∈ labels, I l.before := by
  induction hrun with
  | nil _ => exact ⟨h, by simp⟩
  | cons _ hop _ ih =>
    obtain ⟨hl, hC⟩ := forall_mem_cons.mp hC
    obtain ⟨hend, hlabels⟩ := ih hC (hstep _ _ h hl hop)
    exact ⟨hend, forall_mem_cons.mpr ⟨h, hlabels⟩⟩

/-- A run up to one of its steps, and from there on. -/
lemma Run.split (hrun : Run M c labels c') (hl : labels = first ++ l :: rest) :
    ∃ c₁ c₂, Run M c first c₁ ∧ c₁.state = l.before ∧ c₂.state = l.after ∧ Run M c₂ rest c' := by
  induction hrun generalizing first with
  | nil _ => cases first <;> cases hl
  | @cons c c' i x β op next b s labels hi hop hrest ih =>
    cases first with
    | nil =>
      cases hl
      exact ⟨c, _, .nil c, rfl, rfl, hrest⟩
    | cons m first =>
      obtain ⟨rfl, hlabels⟩ := List.cons.inj hl
      obtain ⟨c₁, c₂, hfirst, hbefore, hafter, hend⟩ := ih hlabels
      exact ⟨c₁, c₂, .cons hi hop hfirst, hbefore, hafter, hend⟩

/-- What holds before every step and in the end holds after every step. -/
lemma Run.after
    (hrun : Run M c labels c') (hbefore : ∀ l ∈ labels, I l.before) (hend : I c'.state) :
    ∀ l ∈ labels, I l.after := by
  induction hrun with
  | nil _ => simp
  | cons _ _ hrest ih =>
    obtain ⟨-, hbefore⟩ := forall_mem_cons.mp hbefore
    refine forall_mem_cons.mpr ⟨?_, ih hbefore hend⟩
    cases hrest with
    | nil _ => exact hend
    | cons _ _ _ => exact hbefore _ mem_cons_self

/-- What no step changes is the same in the end. -/
lemma Run.unchanged {f : σ → δ}
    (hrun : Run M c labels c') (h : ∀ l ∈ labels, f l.after = f l.before) :
    f c'.state = f c.state := by
  induction hrun with
  | nil _ => rfl
  | cons _ _ _ ih =>
    obtain ⟨hl, h⟩ := forall_mem_cons.mp h
    exact (ih h).trans hl

/-- What was not so at first was made so by an earlier step. -/
lemma Run.cause {H : σ → Prop} {C : Label Op σ → Prop}
    (hstep : ∀ (l : Label Op σ) x, M.run l.access.2 l.thread x l.before = some (l.result, l.after) →
      H l.after → H l.before ∨ C l) (hrun : Run M c labels c')
    (h : ¬ H c.state) : ∀ l ∈ labels, H l.before → ∃ m ∈ labels, C m := by
  by_cases hC : ∃ m ∈ labels, C m
  · exact fun _ _ _ => hC
  · have hnot : ∀ l ∈ labels, ¬ C l := fun l hl hl' => hC ⟨l, hl, hl'⟩
    have hkeep := hrun.invariant_along (I := fun s => ¬ H s) (C := fun l => ¬ C l)
      (fun l x hbefore hl hop hafter => (hstep l x hop hafter).elim hbefore hl) hnot h
    exact fun l hl hbefore => absurd hbefore (hkeep.2 l hl)

end Pool

section Steps

variable {Op : Type → Type} {σ ι ρ α β : Type} (M : Machine Op σ ι) (i : Nat)

/-- The steps a thread takes on its own program, with whatever the others do to
the state in between. -/
inductive Prog.Steps : Prog Op α → List (Label Op σ) → Prog Op α → Prop
  | nil (p : Prog Op α) : Steps p [] p
  | cons {δ : Type} {op : Op δ} {next : δ → Prog Op α} {x : ι} {s t : σ} {b : δ}
      {labels : List (Label Op σ)} {p : Prog Op α} :
      M.run op i x s = some (b, t) → Steps (next b) labels p →
        Steps (.act op next) (⟨i, ⟨δ, op⟩, b, s, t⟩ :: labels) p

variable {M i}

/-- The steps of a thread within a run are steps of its program. -/
lemma Pool.Run.steps (hrun : Pool.Run M c labels c') (hp : c.threads[i]? = some p) :
    ∃ p', c'.threads[i]? = some p' ∧
      Prog.Steps M i p (labels.filter fun l => l.thread == i) p' := by
  induction hrun generalizing p with
  | nil c => exact ⟨p, hp, .nil p⟩
  | @cons c c' j x δ op next b s labels hj hop _ ih =>
    by_cases hij : j = i
    · subst hij
      rw [hj] at hp
      cases hp
      have hlt : j < c.threads.length := (List.getElem?_eq_some_iff.mp hj).1
      obtain ⟨p', hp', hsteps⟩ := ih (p := next b) (by simp [hlt])
      refine ⟨p', hp', ?_⟩
      rw [filter_cons_of_pos (by simp)]
      exact .cons hop hsteps
    · obtain ⟨p', hp', hsteps⟩ := ih (p := p) (by simpa [getElem?_set_ne hij] using hp)
      refine ⟨p', hp', ?_⟩
      rw [filter_cons_of_neg (by simpa using hij)]
      exact hsteps

/-- Every step of a program is of the kind its accesses are. -/
lemma Prog.Steps.all (hsteps : Prog.Steps M i p labels q) (hp : p.All P) :
    ∀ l ∈ labels, P l.access.2 := by
  induction hsteps with
  | nil _ => simp
  | cons _ _ ih => exact forall_mem_cons.mpr ⟨hp.1, ih (hp.2 _)⟩

end Steps

section Settling

variable {Op : Type → Type} {σ ι α β κ : Type}
variable (good : κ → Prop) (quiet : {δ : Type} → Op δ → Prop) (P : κ → {δ : Type} → Op δ → Prop)

/-- A program that makes quiet accesses until it settles on a good value, and from
then on only accesses that fit this value. -/
def Prog.Settles : Prog Op α → Prop
  | .ret _ => True
  | .act op next =>
    (quiet op ∧ ∀ b, (next b).Settles) ∨ ∃ k, good k ∧ (Prog.act op next).All (P k)

variable {good quiet P}

lemma Prog.Settles.of_all {p : Prog Op α} (hgood : good k) (hp : p.All (P k)) :
    p.Settles good quiet P := by
  cases p with
  | ret a => trivial
  | act op next => exact .inr ⟨k, hgood, hp⟩

/-- First quiet accesses, then a program that settles. -/
lemma Prog.Settles.bind {k : α → Prog Op β} (hp : p.All quiet)
    (hk : ∀ a, (k a).Settles good quiet P) : (p >>= k).Settles good quiet P := by
  induction p with
  | ret a => exact hk a
  | act op next ih => exact .inl ⟨hp.1, fun b => ih b (hp.2 b)⟩

lemma Prog.Settles.map {p : Prog Op α} (hp : p.Settles good quiet P) (f : α → β) :
    (p >>= fun a => .ret (f a)).Settles good quiet P := by
  induction p with
  | ret a => trivial
  | act op next ih =>
    rcases hp with ⟨hquiet, hnext⟩ | ⟨k, hgood, hall⟩
    · exact .inl ⟨hquiet, fun b => ih b (hnext b)⟩
    · exact .inr ⟨k, hgood, hall.bind fun _ => trivial⟩

/-- **The steps of a program that settles** are quiet, or fit one good value. -/
theorem Prog.Settles.steps (hp : p.Settles good quiet P) (hsteps : Prog.Steps M i p labels q) :
    (∀ l ∈ labels, quiet l.access.2) ∨
      ∃ k, good k ∧ ∀ l ∈ labels, quiet l.access.2 ∨ P k l.access.2 := by
  induction hsteps with
  | nil _ => exact .inl (by simp)
  | @cons δ op next x s t b labels q hop hrest ih =>
    rcases hp with ⟨hquiet, hnext⟩ | ⟨k, hgood, hall⟩
    · rcases ih (hnext b) with hlabels | ⟨k, hgood, hlabels⟩
      · exact .inl (forall_mem_cons.mpr ⟨hquiet, hlabels⟩)
      · exact .inr ⟨k, hgood, forall_mem_cons.mpr ⟨.inl hquiet, hlabels⟩⟩
    · have hlabels := (Prog.Steps.cons (i := i) (M := M) hop hrest).all hall
      exact .inr ⟨k, hgood, fun l hl => .inr (hlabels l hl)⟩

end Settling

section Traces

variable {Op : Type → Type} {σ ι α β : Type} (M : Machine Op σ ι) (i : Nat)

/-- Whenever the program runs to its end, its steps and its result are as `Φ`
says, whatever the others do in between. -/
def Does (Φ : List (Label Op σ) → α → Prop) (p : Prog Op α) : Prop :=
  ∀ labels a, Prog.Steps M i p labels (.ret a) → Φ labels a

variable {M i}

variable {p : Prog Op α}

lemma Does.mono (h : Does M i Φ p) (hΦ : ∀ labels a, Φ labels a → Ψ labels a) : Does M i Ψ p :=
  fun labels a hsteps => hΦ labels a (h labels a hsteps)

lemma Does.ret (h : Φ [] a) : Does M i Φ (.ret a) := by
  intro labels a' hsteps
  cases hsteps
  exact h

lemma Does.act (h : ∀ x s b t, M.run op i x s = some (b, t) →
      Does M i (fun labels a => Φ (⟨i, ⟨β, op⟩, b, s, t⟩ :: labels) a) (next b)) :
    Does M i Φ (.act op next) := by
  intro labels a hsteps
  cases hsteps with
  | cons hop hrest => exact h _ _ _ _ hop _ a hrest

/-- One program after another. -/
lemma Does.bind
    (h : Does M i (fun first a => Does M i (fun rest b => Φ (first ++ rest) b) (k a)) p) :
    Does M i Φ (p >>= k) := by
  induction p generalizing Φ with
  | ret a => exact h [] a (.nil _)
  | act op next ih =>
    refine Does.act fun x s b t hop => ih b ?_
    exact fun labels a hsteps => h _ a (.cons hop hsteps)

/-- Every step is of the kind its access is. -/
lemma Does.of_all {P : {δ : Type} → Op δ → Prop} {C : Label Op σ → Prop}
    (hC : ∀ {δ : Type} (op : Op δ), P op → ∀ x s b t, M.run op i x s = some (b, t) →
      C ⟨i, ⟨δ, op⟩, b, s, t⟩) (hp : p.All P) : Does M i (fun labels _ => ∀ l ∈ labels, C l) p := by
  induction p with
  | ret a => exact Does.ret (by simp)
  | act op next ih =>
    refine Does.act fun x s b t hop => (ih b (hp.2 b)).mono fun labels a hlabels => ?_
    exact forall_mem_cons.mpr ⟨hC op hp.1 x s b t hop, hlabels⟩

end Traces

section Histories

variable {Op : Type → Type} {σ ι α β : Type} (M : Machine Op σ ι) (i : Nat)

/-- After the steps of a thread so far, each of its next steps is as `Φ` says, and
its result is as `Q` says, whatever the others do in between. -/
def Along (Φ : List (Label Op σ) → Label Op σ → Prop) (Q : List (Label Op σ) → α → Prop) :
    List (Label Op σ) → Prog Op α → Prop
  | past, .ret a => Q past a
  | past, @Prog.act _ _ β op next =>
    ∀ x s b t, M.run op i x s = some (b, t) →
      Φ past ⟨i, ⟨β, op⟩, b, s, t⟩ ∧ Along Φ Q (past ++ [⟨i, ⟨β, op⟩, b, s, t⟩]) (next b)

variable {M i} {Φ : List (Label Op σ) → Label Op σ → Prop}

variable {past : List (Label Op σ)} {p : Prog Op α}

lemma Along.mono (h : Along M i Φ Q past p) (hQ : ∀ past a, Q past a → Q' past a) :
    Along M i Φ Q' past p := by
  induction p generalizing past with
  | ret a => exact hQ past a h
  | act op next ih =>
    intro x s b t hrun
    exact ⟨(h x s b t hrun).1, ih b (h x s b t hrun).2⟩

/-- One program after another. -/
lemma Along.bind (h : Along M i Φ (fun past a => Along M i Φ Q past (k a)) past p) :
    Along M i Φ Q past (p >>= k) := by
  induction p generalizing past with
  | ret a => exact h
  | act op next ih =>
    intro x s b t hrun
    exact ⟨(h x s b t hrun).1, ih b (h x s b t hrun).2⟩

lemma Along.of_all {P : {δ : Type} → Op δ → Prop} {A : List (Label Op σ) → Prop}
    (hΦ : ∀ {δ : Type} (op : Op δ), P op → ∀ past x s b t, M.run op i x s = some (b, t) →
      Φ past ⟨i, ⟨δ, op⟩, b, s, t⟩) (hA : ∀ past l, A past → A (past ++ [l]))
    (hp : p.All P) (hpast : A past) : Along M i Φ (fun past _ => A past) past p := by
  induction p generalizing past with
  | ret a => exact hpast
  | act op next ih =>
    intro x s b t hrun
    exact ⟨hΦ op hp.1 past x s b t hrun, ih b (hp.2 b) (hA past _ hpast)⟩

lemma Along.of_known {A : List (Label Op σ) → Prop} (hΦ : ∀ past l, A past → Φ past l)
    (hA : ∀ past l, A past → A (past ++ [l]))
    (hpast : A past) : Along M i Φ (fun past _ => A past) past p := by
  induction p generalizing past with
  | ret a => exact hpast
  | act op next ih => exact fun x s b t _ => ⟨hΦ past _ hpast, ih b (hA past _ hpast)⟩

/-- Every step a thread takes is as its program says. -/
lemma Along.step
    (h : Along M i Φ Q past p) (hsteps : Prog.Steps M i p labels q) (hl : labels = first ++ l :: rest) :
    Φ (past ++ first) l := by
  induction hsteps generalizing past first with
  | nil p => cases first <;> cases hl
  | cons hrun _ ih =>
    cases first with
    | nil =>
      cases hl
      rw [append_nil]
      exact (h _ _ _ _ hrun).1
    | cons m first =>
      obtain ⟨rfl, hrest⟩ := List.cons.inj hl
      have := ih (h _ _ _ _ hrun).2 hrest
      rwa [append_assoc] at this

/-- A thread that has ended has the result its program says. -/
lemma Along.result (h : Along M i Φ Q past p)
    (hsteps : Prog.Steps M i p labels (.ret a)) : Q (past ++ labels) a := by
  generalize hq : Prog.ret a = q at hsteps
  induction hsteps generalizing past with
  | nil p =>
    subst hq
    rw [append_nil]
    exact h
  | cons hrun _ ih =>
    have := ih (h _ _ _ _ hrun).2 hq
    rwa [append_assoc] at this

end Histories

section Ghost

variable {Op : Type → Type} {σ ι ρ γ : Type} (M : Machine Op σ ι) (note : Label Op σ → γ → γ)

/-- The same machine with a record of the past beside the state. -/
def Machine.ghost : Machine Op (σ × γ) ι where
  run {β} op i x s :=
    (M.run op i x s.1).map fun r => (r.1, (r.2, note ⟨i, ⟨β, op⟩, r.1, s.1, r.2⟩ s.2))

/-- The steps of a run with the record beside each state. -/
def annotate : γ → List (Label Op σ) → List (Label Op (σ × γ))
  | _, [] => []
  | g, l :: labels =>
    ⟨l.thread, l.access, l.result, (l.before, g), (l.after, note l g)⟩ :: annotate (note l g) labels

/-- The record after these steps. -/
def recorded (g : γ) (labels : List (Label Op σ)) : γ :=
  labels.foldl (fun g l => note l g) g

variable {M note}

lemma Machine.ghost_run {β : Type} {op : Op β} {i : Nat} {x : ι} {s t : σ × γ} {b : β}
    (h : (M.ghost note).run op i x s = some (b, t)) :
    M.run op i x s.1 = some (b, t.1) ∧ t.2 = note ⟨i, ⟨β, op⟩, b, s.1, t.1⟩ s.2 := by
  obtain ⟨⟨b', t'⟩, hrun, heq⟩ := Option.map_eq_some_iff.mp h
  cases heq
  exact ⟨hrun, rfl⟩

/-- **Every run can be recorded.** -/
theorem Pool.Run.ghost (hrun : Pool.Run M c labels c') (g : γ) :
    Pool.Run (M.ghost note) ⟨(c.state, g), c.threads⟩ (annotate note g labels)
      ⟨(c'.state, recorded note g labels), c'.threads⟩ := by
  induction hrun generalizing g with
  | nil c => exact .nil _
  | @cons c c' i x β op next b s labels hi hop _ ih =>
    refine .cons (x := x) hi ?_ (ih (note ⟨i, ⟨β, op⟩, b, c.state, s⟩ g))
    simp [Machine.ghost, hop]

/-- A step with the record of the steps before it. -/
def Label.noted (note : Label Op σ → γ → γ) (g : γ) (l : Label Op σ) : Label Op (σ × γ) :=
  ⟨l.thread, l.access, l.result, (l.before, g), (l.after, note l g)⟩

lemma mem_annotate :
    m ∈ annotate note g labels ↔ ∃ first l rest, labels = first ++ l :: rest ∧
      m = l.noted note (recorded note g first) := by
  constructor
  · intro hm
    induction labels generalizing g with
    | nil => cases hm
    | cons l labels ih =>
      rcases mem_cons.mp hm with rfl | hm
      · exact ⟨[], l, labels, rfl, rfl⟩
      · obtain ⟨first, l', rest, rfl, rfl⟩ := ih hm
        exact ⟨l :: first, l', rest, rfl, rfl⟩
  · rintro ⟨first, l, rest, rfl, rfl⟩
    induction first generalizing g with
    | nil => exact mem_cons_self ..
    | cons m first ih => exact mem_cons_of_mem _ ih

end Ghost

section Restricted

variable {Op : Type → Type} {σ ι ρ : Type} (M : Machine Op σ ι)
variable (C : Label Op σ → Prop) [DecidablePred C]

/-- The same machine, confined to steps of a certain kind. -/
def Machine.restrict : Machine Op σ ι where
  run {β} op i x s := (M.run op i x s).filter fun r => C ⟨i, ⟨β, op⟩, r.1, s, r.2⟩

variable {M C}

lemma Machine.restrict_run {β : Type} {op : Op β} {i : Nat} {x : ι} {s t : σ} {b : β}
    (h : (M.restrict C).run op i x s = some (b, t)) :
    M.run op i x s = some (b, t) ∧ C ⟨i, ⟨β, op⟩, b, s, t⟩ := by
  obtain ⟨hrun, hC⟩ := Option.filter_eq_some_iff.mp h
  exact ⟨hrun, of_decide_eq_true hC⟩

/-- A run of such steps is a run of the confined machine. -/
lemma Pool.Run.restrict (hrun : Pool.Run M c labels c') (hC : ∀ l ∈ labels, C l) :
    Pool.Run (M.restrict C) c labels c' := by
  induction hrun with
  | nil c => exact .nil c
  | cons hi hop _ ih =>
    obtain ⟨hl, hC⟩ := forall_mem_cons.mp hC
    exact .cons hi (Option.filter_eq_some_iff.mpr ⟨hop, decide_eq_true hl⟩) (ih hC)

end Restricted

end FastAdHunter.Lib
