import FastAdHunter.Lib.Prog

/-!
# Locks

A lock of the shared state: accesses take it, release it, or are made only while
it is held. Programs that do so in the right order, each by its own shape, respect
the lock in every run.
-/

namespace FastAdHunter.Lib

inductive LockUse where
  | acquire
  | release
  | guarded
  | free
  deriving DecidableEq

/-- Whether the thread has the lock after such an access; nothing when the access
is out of order. -/
def LockUse.next : LockUse → Bool → Option Bool
  | acquire, false => some true
  | release, true => some false
  | guarded, true => some true
  | free, held => some held
  | _, _ => none

/-- A lock of a machine: who holds it, and what its accesses do to it. -/
structure Lock {Op : Type → Type} {σ ι : Type} (M : Machine Op σ ι) where
  holder : σ → Option Nat
  use : {β : Type} → Op β → LockUse
  acquires : ∀ {β : Type} {op : Op β} {i x s b t}, use op = .acquire →
    M.run op i x s = some (b, t) → holder s = none ∧ holder t = some i
  releases : ∀ {β : Type} {op : Op β} {i x s b t}, use op = .release →
    M.run op i x s = some (b, t) → holder t = none
  keeps : ∀ {β : Type} {op : Op β} {i x s b t}, use op = .guarded ∨ use op = .free →
    M.run op i x s = some (b, t) → holder t = holder s

namespace Lock

variable {Op : Type → Type} {σ ι α β ρ : Type} {M : Machine Op σ ι} (L : Lock M)

section Programs

/-- A program that starts with the lock or without it, uses it in order, and ends
with it or without it. -/
def Keeps (last : Bool) : Bool → Prog Op α → Prop
  | held, .ret _ => held = last
  | held, .act op next => ∃ held', (L.use op).next held = some held' ∧ ∀ b, Keeps last held' (next b)

/-- Accesses that have nothing to do with the lock. -/
def Ignores {β : Type} (op : Op β) : Prop :=
  L.use op = .free

variable {L}

lemma Keeps.bind
    (hp : L.Keeps m held p) (hk : ∀ a, L.Keeps last m (k a)) : L.Keeps last held (p >>= k) := by
  induction p generalizing held with
  | ret a =>
    cases hp
    exact hk a
  | act op next ih =>
    obtain ⟨held', huse, hnext⟩ := hp
    exact ⟨held', huse, fun b => ih b (hnext b)⟩

lemma Keeps.of_all (hp : p.All L.Ignores) (held : Bool) :
    L.Keeps held held p := by
  induction p with
  | ret a => rfl
  | act op next ih =>
    refine ⟨held, ?_, fun b => ih b (hp.2 b)⟩
    rw [show L.use op = .free from hp.1]
    rfl

end Programs

section Runs

/-- A step that respects the lock. -/
def Follows (l : Label Op σ) : Prop :=
  match L.use l.access.2 with
  | .acquire => L.holder l.before = none ∧ L.holder l.after = some l.thread
  | .release => L.holder l.before = some l.thread ∧ L.holder l.after = none
  | .guarded => L.holder l.before = some l.thread ∧ L.holder l.after = some l.thread
  | .free => L.holder l.after = L.holder l.before

variable {L}

/-- Nobody takes the lock from its holder. -/
lemma Follows.others (h : L.Follows l) (hj : j ≠ l.thread) :
    L.holder l.before = some j ↔ L.holder l.after = some j := by
  have hne : ¬ l.thread = j := fun heq => hj heq.symm
  rw [Follows] at h
  split at h <;> simp [h, hne]

/-- What is guarded is done by the holder. -/
lemma Follows.of_guarded (h : L.Follows l)
    (hguarded : L.use l.access.2 = .guarded) : L.holder l.before = some l.thread := by
  rw [Follows, hguarded] at h
  exact h.1

/-- One step of a program in order. -/
lemma Keeps.follows (h : L.Keeps last held (.act op next))
    (hheld : held = true ↔ L.holder s = some i) (hrun : M.run op i x s = some (b, t)) :
    L.Follows ⟨i, ⟨β, op⟩, b, s, t⟩ ∧
      ∃ held', (held' = true ↔ L.holder t = some i) ∧ L.Keeps last held' (next b) := by
  obtain ⟨held', huse, hnext⟩ := h
  have hnext := hnext b
  rw [Follows]
  cases hkind : L.use op with
  | acquire =>
    obtain ⟨hs, ht⟩ := L.acquires hkind hrun
    refine ⟨⟨hs, ht⟩, held', ?_, hnext⟩
    rw [hkind] at huse
    cases held <;> cases huse
    simp [ht]
  | release =>
    have ht := L.releases hkind hrun
    rw [hkind] at huse
    cases held <;> cases huse
    exact ⟨⟨hheld.mp rfl, ht⟩, false, by simp [ht], hnext⟩
  | guarded =>
    have ht := L.keeps (.inl hkind) hrun
    rw [hkind] at huse
    cases held <;> cases huse
    exact ⟨⟨hheld.mp rfl, ht.trans (hheld.mp rfl)⟩, true, by rw [ht]; exact hheld, hnext⟩
  | free =>
    have ht := L.keeps (.inr hkind) hrun
    rw [hkind] at huse
    cases huse
    exact ⟨ht, held, by rw [ht]; exact hheld, hnext⟩

/-- Every thread uses the lock in order from here on, and has it when its program
says so. -/
def Orderly (L : Lock M) (c : Pool Op σ ρ) : Prop :=
  ∀ i p, c.threads[i]? = some p →
    ∃ held, (held = true ↔ L.holder c.state = some i) ∧ L.Keeps false held p

/-- A free lock, and threads that take it before they need it. -/
lemma orderly_of_free {c : Pool Op σ ρ} (hfree : L.holder c.state = none)
    (h : ∀ p ∈ c.threads, L.Keeps false false p) : L.Orderly c := by
  intro i p hp
  exact ⟨false, by simp [hfree], h p (List.mem_of_getElem? hp)⟩

/-- **Orderly threads respect the lock.** -/
theorem Orderly.follows (h : L.Orderly c)
    (hrun : Pool.Run M c labels c') : (∀ l ∈ labels, L.Follows l) ∧ L.Orderly c' := by
  induction hrun with
  | nil c => exact ⟨by simp, h⟩
  | @cons c c' i x β op next b s labels hi hop _ ih =>
    obtain ⟨held, hheld, hkeeps⟩ := h i _ hi
    obtain ⟨hfollows, hnext⟩ := hkeeps.follows hheld hop
    have horderly : L.Orderly ⟨s, c.threads.set i (next b)⟩ := by
      intro j p hj
      rw [List.getElem?_set] at hj
      by_cases hij : i = j
      · subst hij
        rw [if_pos rfl] at hj
        split at hj
        · cases hj
          exact hnext
        · cases hj
      · rw [if_neg hij] at hj
        obtain ⟨held', hheld', hkeeps'⟩ := h j p hj
        exact ⟨held', hheld'.trans (hfollows.others fun heq => hij heq.symm), hkeeps'⟩
    obtain ⟨hlabels, hend⟩ := ih horderly
    exact ⟨List.forall_mem_cons.mpr ⟨hfollows, hlabels⟩, hend⟩

/-- Who has the lock keeps it as long as it does not release it. -/
lemma Follows.keeps (h : L.Follows l) (hheld : L.holder l.before = some i)
    (hkept : ¬ (l.thread = i ∧ L.use l.access.2 = .release)) : L.holder l.after = some i := by
  by_cases hi : i = l.thread
  · subst hi
    rw [Follows] at h
    split at h
    next => simp [hheld] at h
    next huse => exact absurd ⟨rfl, huse⟩ hkept
    next => exact h.2
    next => exact h.trans hheld
  · exact (h.others hi).mp hheld

/-- Between guarded accesses of two threads the first has released the lock. -/
lemma Orderly.released (h : L.Orderly c) (hrun : Pool.Run M c labels c')
    (hlabels : labels = first ++ l :: (mid ++ m :: rest)) (hl : L.use l.access.2 = .guarded)
    (hm : L.use m.access.2 = .guarded) (hne : l.thread ≠ m.thread) :
    ∃ r ∈ mid, r.thread = l.thread ∧ L.use r.access.2 = .release := by
  by_contra hnone
  obtain ⟨hfollows, -⟩ := h.follows hrun
  subst hlabels
  obtain ⟨c₁, c₂, -, -, hafter, hlater⟩ := hrun.split rfl
  obtain ⟨c₃, c₄, hmid, hbefore, -, -⟩ := hlater.split rfl
  have hl' := hfollows l (by simp)
  have hheld : L.holder c₂.state = some l.thread := by
    rw [Follows, hl] at hl'
    rw [hafter]
    exact hl'.2
  obtain ⟨hend, -⟩ := hmid.invariant_along (I := fun s => L.holder s = some l.thread)
    (C := fun r => L.Follows r ∧ ¬ (r.thread = l.thread ∧ L.use r.access.2 = .release))
    (fun r _ hr hC _ => hC.1.keeps hr hC.2)
    (fun r hr => ⟨hfollows r (by simp [hr]), fun hrel => hnone ⟨r, hr, hrel⟩⟩) hheld
  rw [hbefore, (hfollows m (by simp)).of_guarded hm] at hend
  exact hne (Option.some.inj hend).symm

end Runs

end Lock

end FastAdHunter.Lib
