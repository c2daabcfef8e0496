import FastAdHunter.Lib.Prog

/-!
# Threads that interfere

What a thread achieves while others change the state between its steps: each
thread relies on the others to keep to a relation between states, and guarantees
that its own steps keep to one.
-/

namespace FastAdHunter.Lib

open List

section RelyGuarantee

variable {Op : Type → Type} {σ ι : Type} (M : Machine Op σ ι)
variable (inv : σ → Prop) (rely guar : Nat → σ → σ → Prop)

/-- Thread `i`, started in a state, keeps its guarantee and the invariant at each
of its steps and ends in `Q`, as long as the others keep to its rely between
them. -/
def Holds (i : Nat) {α : Type} (Q : α → σ → Prop) : Prog Op α → σ → Prop
  | .ret a, s => ∀ s', rely i s s' → Q a s'
  | .act op next, s =>
    ∀ s', rely i s s' → inv s' → ∀ x b t, M.run op i x s' = some (b, t) →
      guar i s' t ∧ inv t ∧ Holds i Q (next b) t

/-- Interference that can come in any amount. -/
structure Stable (rely : Nat → σ → σ → Prop) : Prop where
  refl : ∀ i s, rely i s s
  trans : ∀ i s t u, rely i s t → rely i t u → rely i s u

variable {M inv rely guar} {α β : Type} {i : Nat} {s t : σ}

variable {p : Prog Op α}

lemma Holds.of_rely (hrely : Stable rely)
    (h : Holds M inv rely guar i Q p s) (hst : rely i s t) : Holds M inv rely guar i Q p t := by
  cases p with
  | ret | act => exact fun u hu => h u (hrely.trans i s t u hst hu)

lemma Holds.mono (h : Holds M inv rely guar i Q p s) (hQ : ∀ a t, Q a t → Q' a t) :
    Holds M inv rely guar i Q' p s := by
  induction p generalizing s with
  | ret a => exact fun t ht => hQ a t (h t ht)
  | act op next ih =>
    intro t ht hinv x b u hrun
    obtain ⟨hguar, hinv', hnext⟩ := h t ht hinv x b u hrun
    exact ⟨hguar, hinv', ih b hnext⟩

/-- One program after another. -/
lemma Holds.bind (hrely : Stable rely)
    (h : Holds M inv rely guar i (fun a t => Holds M inv rely guar i Q (k a) t) p s) :
    Holds M inv rely guar i Q (p >>= k) s := by
  induction p generalizing s with
  | ret a => exact h s (hrely.refl i s)
  | act op next ih =>
    intro t ht hinv x b u hrun
    obtain ⟨hguar, hinv', hnext⟩ := h t ht hinv x b u hrun
    exact ⟨hguar, hinv', ih b hnext⟩

variable (M inv guar) in
/-- One access takes a thread from what it knows to what it knows then. -/
def Leads (i : Nat) (A : σ → Prop) (op : Op β) (B : β → σ → Prop) : Prop :=
  ∀ s x b t, inv s → A s → M.run op i x s = some (b, t) → guar i s t ∧ inv t ∧ B b t

lemma Leads.mono (h : Leads M inv guar i A op B) (hB : ∀ b t, B b t → B' b t) :
    Leads M inv guar i A op B' := by
  intro s x b t hinv hs hrun
  obtain ⟨hguar, hinv', hb⟩ := h s x b t hinv hs hrun
  exact ⟨hguar, hinv', hB b t hb⟩

lemma Holds.act {next : β → Prog Op α} (hstable : ∀ s t, rely i s t → A s → A t) (hop : Leads M inv guar i A op B)
    (hs : A s) (hnext : ∀ b t, B b t → Holds M inv rely guar i Q (next b) t) :
    Holds M inv rely guar i Q (.act op next) s := by
  intro t hst hinv x b u hrun
  obtain ⟨hguar, hinv', hB⟩ := hop t x b u hinv (hstable s t hst hs) hrun
  exact ⟨hguar, hinv', hnext b u hB⟩

/-- A program keeps what each of its accesses keeps. -/
lemma Holds.of_all (hstable : ∀ s t, rely i s t → A s → A t)
    (hstep : ∀ {δ : Type} (op : Op δ), P op → ∀ s x b t, A s → inv s →
      M.run op i x s = some (b, t) → guar i s t ∧ inv t ∧ A t) (hp : p.All P) (hA : A s) :
    Holds M inv rely guar i (fun _ => A) p s := by
  induction p generalizing s with
  | ret a => exact fun t ht => hstable s t ht hA
  | act op next ih =>
    intro t ht hinv x b u hrun
    obtain ⟨hguar, hinv', hA'⟩ := hstep op hp.1 t x b u (hstable s t ht hA) hinv hrun
    exact ⟨hguar, hinv', ih b (hp.2 b) hA'⟩

end RelyGuarantee

section Parallel

variable {Op : Type → Type} {σ ι ρ : Type} {M : Machine Op σ ι}
variable {inv : σ → Prop} {rely guar : Nat → σ → σ → Prop}

/-- **Threads in parallel.** When the guarantee of each thread is within the rely
of every other, every run keeps the invariant, every step keeps the guarantee of
its thread, and every thread still does what it does on its own. -/
theorem Pool.Run.holds (hrely : Stable rely)
    (hguar : ∀ i j, i ≠ j → ∀ s t, inv s → guar i s t → rely j s t) {Q : Nat → ρ → σ → Prop}
    (hrun : Pool.Run M c labels c') (hinv : inv c.state)
    (h : ∀ i p, c.threads[i]? = some p → Holds M inv rely guar i (Q i) p c.state) :
    inv c'.state ∧ (∀ l ∈ labels, inv l.before ∧ guar l.thread l.before l.after) ∧
      ∀ i p, c'.threads[i]? = some p → Holds M inv rely guar i (Q i) p c'.state := by
  induction hrun with
  | nil c => exact ⟨hinv, by simp, h⟩
  | @cons c c' i x β op next b s labels hi hop _ ih =>
    obtain ⟨hkeep, hinv', hnext⟩ :=
      h i _ hi c.state (hrely.refl i _) hinv x b s hop
    have hthreads : ∀ j p, (c.threads.set i (next b))[j]? = some p →
        Holds M inv rely guar j (Q j) p s := by
      intro j p hj
      rw [getElem?_set] at hj
      by_cases hij : i = j
      · subst hij
        rw [if_pos rfl] at hj
        split at hj
        · cases hj
          exact hnext
        · cases hj
      · rw [if_neg hij] at hj
        exact (h j p hj).of_rely hrely (hguar i j hij _ _ hinv hkeep)
    obtain ⟨hend, hlabels, hlast⟩ := ih hinv' hthreads
    refine ⟨hend, ?_, hlast⟩
    intro l hl
    rcases mem_cons.mp hl with rfl | hl
    · exact ⟨hinv, hkeep⟩
    · exact hlabels l hl

/-- One thread among others that keep to its rely. -/
lemma Pool.Run.holds_among (hrely : Stable rely) (hrun : Pool.Run M c labels c')
    (hinv : ∀ l ∈ labels, inv l.before)
    (hothers : ∀ l ∈ labels, l.thread ≠ i → rely i l.before l.after)
    (hp : c.threads[i]? = some p) (h : Holds M inv rely guar i Q p c.state) :
    (∀ l ∈ labels, l.thread = i → guar i l.before l.after) ∧
      ∃ p', c'.threads[i]? = some p' ∧ Holds M inv rely guar i Q p' c'.state := by
  induction hrun generalizing p with
  | nil c => exact ⟨by simp, p, hp, h⟩
  | @cons c c' j x β op next b s labels hj hop _ ih =>
    obtain ⟨hinv₀, hinv⟩ := forall_mem_cons.mp hinv
    obtain ⟨hother, hothers⟩ := forall_mem_cons.mp hothers
    by_cases hij : j = i
    · subst hij
      rw [hj] at hp
      cases hp
      obtain ⟨hguar, -, hnext⟩ := h c.state (hrely.refl j _) hinv₀ x b s hop
      have hlt : j < c.threads.length := (List.getElem?_eq_some_iff.mp hj).1
      obtain ⟨hlabels, hend⟩ := ih hinv hothers (p := next b) (by simp [hlt]) hnext
      exact ⟨forall_mem_cons.mpr ⟨fun _ => hguar, hlabels⟩, hend⟩
    · obtain ⟨hlabels, hend⟩ := ih hinv hothers (p := p)
        (by simpa [getElem?_set_ne hij] using hp) (h.of_rely hrely (hother hij))
      exact ⟨forall_mem_cons.mpr ⟨fun heq => absurd heq hij, hlabels⟩, hend⟩

end Parallel

end FastAdHunter.Lib
