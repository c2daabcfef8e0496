import FastAdHunter.Rules.Lifecycle.Debt

/-!
# The ruleset converges

Every operation that runs while the manager serves ends without debt. So when all have ended, the ruleset that serves is the one of the current
texts and policies.

This needs that no list is registered under the id of the user rules: the copy of
such a list and the user rules are one file, and a removal that finds its list
gone has deleted the file and does not compile.
-/

namespace FastAdHunter.Rules.Lifecycle

open Lib
open List hiding next

section Refreshing

variable {α β : Type} {i : Nat} {c : Ledger}

lemma cacheValidators_quiet (id : Bytes) (validators : Validators) :
    (cacheValidators id validators).All Access.Quiet := by
  rw [cacheValidators]
  split
  all_goals exact ⟨trivial, fun _ => trivial⟩

lemma commitRaw_held (hc : Held i c) (id text : Bytes) :
    Pays i (fun _ d => Held i d) (commitRaw id text) c := by
  simp only [commitRaw, Prog.lift_bind]
  refine Pays.writeText (by trivial) hc fun d _ x written t _ debts hheld _ => ?_
  split
  all_goals
    refine Pays.writeText (by trivial) hheld fun e _ y b u _ debts' hheld' _ => ?_
    exact Pays.ret fun _ he => he.keeps_held hheld'

def DebtIfCommitted (i : Nat) (c : Ledger) (r : Except LifecycleError CommitOutcome) (d : Ledger) :
    Prop :=
  r ≠ .ok .committed → (d.2 i ↔ c.2 i)

lemma commitChecked_pays (hc : Held i c) (entry : Entry) (text : Bytes) (validators : Validators)
    (baseline : Option RefreshStats) :
    Pays i (fun r d => Held i d ∧ DebtIfCommitted i c r d)
      (commitChecked entry text validators baseline) c := by
  simp only [commitChecked, Prog.lift_bind]
  refine Pays.quiet (by trivial) ?_
  intro d hd _ x live t _
  have hstop : ∀ {d'} (r : Except LifecycleError CommitOutcome), Rely i c d' →
      Pays i (fun r d => Held i d ∧ DebtIfCommitted i c r d) (pure r) d' := by
    intro d' r hd'
    apply Pays.ret
    intro e he
    have hce := hd'.trans he
    exact ⟨hce.keeps_held hc, fun _ => hce.debt.symm⟩
  split
  · apply Pays.bind
    apply (Pays.of_all (quiet_of_minor (fallback_minor baseline entry.id)) hd).mono
    intro status e he
    split
    · exact hstop _ he
    · apply Pays.bind
      apply (commitRaw_held (he.keeps_held hc) entry.id text).mono
      intro _ e₁ hheld
      apply Pays.bind
      apply (Pays.of_all (cacheValidators_quiet _ _) (stable_rely.refl i e₁)).mono
      intro _ e₂ he₂
      exact Pays.ret fun e₃ he₃ => ⟨(he₂.trans he₃).keeps_held hheld, fun hne => absurd rfl hne⟩
  · exact hstop _ hd

lemma fetchUnderLock_pays (entry : Entry) :
    Pays i (DebtIfCommitted i c) (fetchUnderLock entry) c := by
  simp only [fetchUnderLock, Prog.lift_bind]
  have hstop : ∀ {d} (r : Except LifecycleError CommitOutcome), Rely i c d →
      Pays i (DebtIfCommitted i c) (pure r) d :=
    fun r hd => Pays.ret fun e he _ => (hd.trans he).debt.symm
  refine Pays.quiet (by trivial) fun d₁ hd₁ _ _ _ _ _ => ?_
  refine Pays.quiet (by trivial) fun d₂ hd₂ _ _ status _ _ => ?_
  refine Pays.quiet (by trivial) fun d₃ hd₃ _ _ stored _ _ => ?_
  refine Pays.quiet (by trivial) fun d₄ hd₄ _ _ outcome _ _ => ?_
  have hd := ((hd₁.trans hd₂).trans hd₃).trans hd₄
  split
  · exact hstop _ hd
  · exact hstop _ hd
  · apply Pays.bind
    apply (Pays.of_all (quiet_of_minor (listText_minor _)) hd).mono
    intro cached e he
    split
    · apply Pays.bind
      apply (Pays.of_all (cacheValidators_quiet _ _) he).mono
      intro _ e' he'
      exact hstop _ he'
    · apply Pays.lock
      intro e₁ hheld hsame
      apply Pays.bind
      apply (commitChecked_pays hheld _ _ _ _).mono
      rintro r e₂ ⟨hheld', hdebt⟩
      apply Pays.unlock hheld'
      intro e₃ hsame'
      apply Pays.ret
      intro e₄ he₄ hne
      exact he₄.debt.symm.trans (hsame'.trans ((hdebt hne).trans (hsame.trans he.debt.symm)))

lemma fetchAndCommit_pays (entry : Entry) :
    Pays i (DebtIfCommitted i c) (fetchAndCommit entry) c := by
  simp only [fetchAndCommit, Prog.lift_bind]
  refine Pays.quiet (by trivial) fun d hd _ _ _ _ _ => ?_
  apply Pays.bind
  apply (fetchUnderLock_pays entry).mono
  intro r e hdebt
  refine Pays.quiet (by trivial) fun e₁ he₁ _ _ _ _ _ => ?_
  intro e₂ he₂ hne
  exact (he₁.trans he₂).debt.symm.trans ((hdebt hne).trans hd.debt.symm)

/-- A refresh pays the debt of its commits with the compile that follows them. -/
def paying (i : Nat) : Discipline Ledger where
  Judges Q p c := Pays i Q p c
  Same := Rely i
  Open _ := True
  Held := Held i
  Clean c := ¬ c.2 i
  refl := stable_rely.refl i
  trans := Rely.trans
  opened _ _ := trivial
  held h := h.keeps_held
  clean h hc howe := hc (h.debt.mpr howe)
  ret _ h := Pays.ret h
  minor hop h := Pays.quiet hop.quiet fun d hd _ _ b _ _ => h b d hd fun _ _ => trivial
  fetches _ _ h := Pays.bind ((fetchAndCommit_pays _).mono fun outcome d hd =>
    h outcome d trivial (fun _ _ => trivial) fun hne hc howe => hc ((hd hne).mp howe))
  locks _ h := Pays.lock fun d hd _ => h d hd
  compiles hh h := Pays.bind ((compileAndSwap_pays hh).mono fun stats d hd => h stats d hd.1 hd.2)
  unlocks hh h := Pays.unlock hh fun d hd => h d trivial fun hc howe => hc (hd.mp howe)

end Refreshing

section Changing

variable {α β : Type} {i : Nat} {c : Ledger}

/-- Accesses that change what a compile reads without its lock. -/
def Access.Loose {β : Type} : Access β → Prop
  | .swapEnabled _ _ | .storePolicies _ => True
  | _ => False

lemma Pays.loose
    (hop : op.Loose) (h : ∀ d, Rely i c d → ∀ x b t, Access.run op i x d.1 = some (b, t) →
      ∀ debts : Debts, (SameInputs d.1 t → debts = d.2) → Pays i Q (next b) (t, debts)) :
    Pays i Q (.act op next) c := by
  have htouches : op.publishes = false ∧ ¬ op.touches .matcher ∧ ¬ op.touches .compileLock ∧
      ¬ op.touches .entries ∧ ∀ id, ¬ op.touches (.pending id) ∧ ¬ op.touches (.raw id) := by
    cases op <;> first
      | exact hop.elim
      | exact ⟨rfl, nofun, nofun, nofun, fun _ => ⟨nofun, nofun⟩⟩
  obtain ⟨hpub, hmatcher, hlock, hentries, htext⟩ := htouches
  apply Pays.act
  intro d hd _ x b t hrun
  have hframe := Access.frame hrun
  refine ⟨guar_of_step hpub (hframe.matcher hmatcher) ?_ ?_ ?_, h d hd x b t hrun _ ?_⟩
  · rw [hframe.entries hentries]
    exact List.Subset.refl _
  · intro j _
    rw [hframe.compileLock hlock]
  · intro _
    exact ⟨(hframe.entries hentries).symm,
      funext fun id => (hframe.pending id (htext id).1).symm,
      funext fun id => (hframe.raw id (htext id).2).symm⟩
  · exact fun hsame => noteDebt_eq_self hpub hsame b d.2

lemma setEnabled_pays (entry : Entry) (enabled : Option Bool) :
    Pays i (fun r d => r = false → (d.2 i ↔ c.2 i)) (setEnabled entry enabled) c := by
  cases enabled with
  | none => exact Pays.ret fun d hd _ => hd.debt.symm
  | some enabled =>
    refine Pays.loose (by trivial) fun d hd x before t hrun debts hdebts => ?_
    cases hrun
    intro e he hsame
    have hbefore : d.1.enabled entry.ptr = enabled := by simpa using hsame
    rw [← he.debt, hd.debt, hdebts]
    exact ⟨rfl, by rw [← hbefore, Function.update_eq_self], fun _ _ => rfl, rfl⟩

lemma setHours_quiet (entry : Entry) (hours : Option (Option Nat)) :
    (setHours entry hours).All Access.Quiet := by
  cases hours with
  | none => trivial
  | some hours => exact ⟨trivial, fun _ => trivial⟩

lemma updateList_pays (hc : ¬ c.2 i) (id : Bytes) (patch : ListPatch) :
    Pays i (fun r d => r.isSome → ¬ d.2 i) (updateList id patch) c := by
  simp only [updateList, Prog.lift_bind]
  refine Pays.quiet (by trivial) fun d₁ hd₁ _ _ found _ _ => ?_
  split
  · exact Pays.ret fun e he _ howe => hc ((hd₁.trans he).debt.mpr howe)
  · apply Pays.bind
    apply (setEnabled_pays _ patch.enabled).mono
    intro changed d₂ hchanged
    apply Pays.bind
    apply (Pays.of_all (setHours_quiet _ _) (stable_rely.refl i d₂)).mono
    intro _ d₃ hd₃
    apply Pays.bind
    have hcompiled : Pays i (fun compiled d => compiled = true → ¬ d.2 i)
        (if changed = true then do
          let stats ← recompile
          pure stats.isSome
        else pure true) d₃ := by
      split
      · apply Pays.bind
        apply recompile_pays.mono
        exact fun r e hpaid => Pays.ret fun e' he' hr howe => hpaid hr (he'.debt.mpr howe)
      · next hsame =>
        intro e he _ howe
        have hback := hchanged (by simpa using hsame)
        exact hc (hd₁.debt.mpr (hback.mp ((hd₃.trans he).debt.mpr howe)))
    apply hcompiled.mono
    intro compiled e hpaid
    split
    · next hdone =>
      apply Pays.bind
      apply (Pays.of_all (quiet_of_minor (view_minor _)) (stable_rely.refl i e)).mono
      intro _ e₁ he₁
      exact Pays.ret fun e₂ he₂ _ howe => hpaid hdone ((he₁.trans he₂).debt.mpr howe)
    · exact Pays.ret fun _ _ => by simp

lemma setUserRules_pays (text : Bytes) :
    Pays i (fun r d => r.isSome → ¬ d.2 i) (setUserRules text) c := by
  simp only [setUserRules, Prog.lift_bind]
  apply Pays.lock
  intro d hd _
  apply Pays.bind
  apply (commitRaw_held hd userRulesId text).mono
  intro _ e hheld
  apply Pays.bind
  apply (compileAndSwap_pays hheld).mono
  rintro r e₁ ⟨hheld', hpaid⟩
  cases r with
  | none =>
    apply Pays.unlock hheld'
    exact fun _ _ => Pays.ret fun _ _ => by simp
  | some stats =>
    refine Pays.quiet (by trivial) fun e₂ he₂ _ _ _ _ _ => ?_
    apply Pays.unlock (he₂.keeps_held hheld')
    intro e₃ hsame
    exact Pays.ret fun e₄ he₄ _ howe => hpaid rfl (he₂.debt.mpr (hsame.mp (he₄.debt.mpr howe)))

lemma setPolicies_pays (policies : PolicySet) :
    Pays i (fun r d => r.isSome → ¬ d.2 i) (setPolicies policies) c := by
  simp only [setPolicies, Prog.lift_bind]
  refine Pays.loose (by trivial) fun d _ x b t _ debts _ => ?_
  apply Pays.bind
  apply recompile_pays.mono
  intro r e hpaid
  apply Pays.ret
  intro e' he' hr howe
  exact hpaid (by simpa using hr) (he'.debt.mpr howe)

def Unlisted (id : Bytes) (c : Ledger) : Prop :=
  ∀ entry ∈ c.1.entries, entry.id ≠ id

lemma dropList_pays (hc : Held i c) (id : Bytes) (hgone : Unlisted id c → ¬ c.2 i) :
    Pays i (fun r d => Held i d ∧ (r.isSome → ¬ d.2 i)) (dropList id) c := by
  simp only [dropList, Prog.lift_bind]
  refine Pays.write (by rfl) nofun nofun hc ?_
  intro d hd _ x any t hrun
  cases hrun
  refine ⟨filter_sublist.subset, fun debts hheld hdebts => ?_⟩
  split
  · refine Pays.quiet (by trivial) fun d₁ hd₁ _ _ _ _ _ => ?_
    refine Pays.quiet (by trivial) fun d₂ hd₂ _ _ _ _ _ => ?_
    have hheld₂ := (hd₁.trans hd₂).keeps_held hheld
    refine Pays.writeText (by trivial) hheld₂ fun d₃ _ _ _ t' _ debts' hheld₃ _ => ?_
    apply Pays.bind
    apply (compileAndSwap_pays hheld₃).mono
    rintro r e ⟨hheld', hpaid⟩
    intro e' he'
    refine ⟨he'.keeps_held hheld', fun hr howe => ?_⟩
    exact hpaid (by simpa using hr) (he'.debt.mpr howe)
  · next hnone =>
    have hunlisted : Unlisted id d := by
      intro entry hentry heq
      exact hnone (any_eq_true.mpr ⟨entry, hentry, by simpa using heq⟩)
    have hsame : debts = d.2 := by
      apply hdebts
      refine ⟨(filter_eq_self.mpr ?_).symm, rfl, fun _ _ => rfl, rfl⟩
      intro entry hentry
      simpa using hunlisted entry hentry
    intro e he
    refine ⟨he.keeps_held hheld, fun _ howe => ?_⟩
    apply hgone
    · rw [Unlisted, (hd.held hc).1]
      exact hunlisted
    · rw [hd.debt, ← hsame]
      exact he.debt.mpr howe

lemma removeUnderLock_pays (hc : Held i c) (hpaid : ¬ c.2 i) {id : Bytes} (hid : id ≠ userRulesId) :
    Pays i (fun r d => Held i d ∧ (r.isSome → ¬ d.2 i)) (removeUnderLock id) c := by
  simp only [removeUnderLock, Prog.lift_bind]
  refine Pays.quiet (by trivial) fun d hd _ _ _ _ _ => ?_
  refine Pays.writeText (by trivial) (hd.keeps_held hc) fun e he x r t hrun debts hheld hdebts => ?_
  have hpaid' : ¬ e.2 i := fun howe => hpaid ((hd.trans he).debt.mpr howe)
  cases r with
  | ok _ =>
    apply dropList_pays hheld
    intro hunlisted
    have ht : ∃ raw, t = { e.1 with raw := Function.update e.1.raw id raw } := by
      simp only [Access.run] at hrun
      split at hrun <;> cases hrun
      exact ⟨none, rfl⟩
    obtain ⟨raw, rfl⟩ := ht
    -- the copy of an id that is no list and not the user rules is never read
    rw [hdebts]
    · exact hpaid'
    · refine ⟨rfl, rfl, fun other hother => ?_, rfl⟩
      have hne : other ≠ id := by
        rintro rfl
        obtain heq | ⟨entry, hentry, heq⟩ := hother
        · exact hid heq
        · exact hunlisted entry hentry heq
      simp [Manager.text, Function.update_of_ne hne]
  | error causes =>
    have ht : t = e.1 := by
      simp only [Access.run] at hrun
      split at hrun <;> cases hrun
      rfl
    subst ht
    intro e' he'
    refine ⟨he'.keeps_held hheld, fun _ howe => hpaid' ?_⟩
    rw [← hdebts (.refl _)]
    exact he'.debt.mpr howe

lemma removeList_pays (hc : ¬ c.2 i) (id : Bytes) :
    Pays i (fun r d => r.isSome → ¬ d.2 i) (removeList id) c := by
  simp only [removeList, Prog.lift_bind]
  refine Pays.quiet (by trivial) fun d hd hsound x found t hrun => ?_
  cases found with
  | none => exact Pays.ret fun e he _ howe => hc ((hd.trans he).debt.mpr howe)
  | some entry =>
    cases hrun' : d.1.entries.find? (·.id == id) with
    | none => simp [Access.run, hrun'] at hrun
    | some entry' =>
      have hid : id ≠ userRulesId := by
        have heq : entry'.id = id := by simpa using find?_some hrun'
        rw [← heq]
        exact hsound.ids entry' (mem_of_find?_eq_some hrun')
      apply Pays.lock
      intro e hheld hsame
      have hpaid : ¬ e.2 i := fun howe => hc (hd.debt.mpr (hsame.mp howe))
      apply Pays.bind
      apply (removeUnderLock_pays hheld hpaid hid).mono
      rintro r e₁ ⟨hheld', hpaid'⟩
      apply Pays.unlock hheld'
      intro e₂ hsame'
      exact Pays.ret fun e₃ he₃ hr howe => hpaid' hr (hsame'.mp (he₃.debt.mpr howe))

end Changing

section Converging

variable {i : Nat} {c : Ledger}

/-- The operations that run while the manager serves, but for the additions. -/
def Operation.Serving : Operation → Prop
  | .addList _ | .boot => False
  | _ => True

/-- The operation ran to its end. -/
def Reply.Completed (reply : Reply) : Prop :=
  reply ≠ .panicked

lemma pays_reply {p : Prog Access (Option δ)} {f : δ → Reply}
    (h : Pays i (fun r d => r.isSome → ¬ d.2 i) p c) :
    Pays i (fun reply d => reply.Completed → ¬ d.2 i)
      (p >>= fun r => pure (r.elim .panicked f)) c := by
  refine Pays.bind (h.mono fun r d hpaid => Pays.ret fun e he hcompleted howe => ?_)
  cases r with
  | none => exact hcompleted rfl
  | some v => exact hpaid rfl (he.debt.mpr howe)

lemma Operation.pays {op : Operation} (hop : op.Serving) (hc : ¬ c.2 i) :
    Pays i (fun reply d => reply.Completed → ¬ d.2 i) op.program c := by
  match op with
  | .refreshList id => exact pays_reply (((paying i).refreshList_ends trivial hc id).mono fun _ _ h => h.2)
  | .refreshAll => exact pays_reply (((paying i).refreshAll_ends trivial hc).mono fun _ _ h => h.2)
  | .refreshDueLists => exact pays_reply (((paying i).refreshDueLists_ends trivial hc).mono fun _ _ h => h.2)
  | .updateList id patch => exact pays_reply (updateList_pays hc id patch)
  | .removeList id => exact pays_reply (removeList_pays hc id)
  | .setUserRules text => exact pays_reply (setUserRules_pays text)
  | .setPolicies policies => exact pays_reply (setPolicies_pays policies)

/-- Every operation ran to its end. -/
def AllCompleted (c : Pool Access Manager Reply) : Prop :=
  ∀ p ∈ c.threads, ∃ reply, p = .ret reply ∧ reply.Completed

lemma allCompleted_of_completed {c : Pool Access Manager Reply}
    (h : c.threads.all completed = true) : AllCompleted c := by
  intro p hp
  have hp := all_eq_true.mp h p hp
  cases p with
  | ret reply =>
    refine ⟨reply, rfl, ?_⟩
    rintro rfl
    exact Bool.noConfusion hp
  | act op next => exact Bool.noConfusion hp

lemma debt_of_run {c c' : Pool Access Manager Reply} (hrun : Pool.Run machine c labels c')
    (h : ∀ j, debts j → j < c.threads.length) :
    ∀ j, recorded noteDebt debts labels j → j < c.threads.length := by
  induction hrun generalizing debts with
  | nil _ => exact h
  | @cons c c' i x β op next b s labels hi hop _ ih =>
    have hlt : i < c.threads.length := (List.getElem?_eq_some_iff.mp hi).1
    rw [length_set] at ih
    refine ih fun j hj => ?_
    by_cases hji : j = i
    · exact hji ▸ hlt
    · exact h j ((noteDebt_other hji).mp hj)

lemma converged_of_pays {c c' : Pool Access Manager Reply}
    (hsound : Sound (c.state, debts)) (hdebts : ∀ j, debts j → j < c.threads.length)
    (hpays : ∀ i p, c.threads[i]? = some p →
      Pays i (fun reply d => reply.Completed → ¬ d.2 i) p (c.state, debts))
    (hrun : Pool.Run machine c labels c') (hdone : AllCompleted c') : c'.state.Converged := by
  obtain ⟨hend, -, hthreads⟩ := Pool.Run.holds stable_rely
    (fun i j hij _ _ _ h => Guar.rely hij h) (hrun.ghost debts) hsound hpays
  rcases hend.served with hconv | ⟨j, hj⟩
  · exact hconv
  · -- whoever is in debt has a thread, and that thread completed
    have hlt : j < c'.threads.length := hrun.threads_length ▸ debt_of_run hrun hdebts j hj
    obtain ⟨reply, hret, hcompleted⟩ := hdone _ (getElem_mem hlt)
    have hget := getElem?_eq_getElem hlt
    simp only [hret] at hget
    exact absurd hj (hthreads j _ hget _ (stable_rely.refl j _) hcompleted)

/-- **The ruleset converges** when no list is registered under the id of the user
rules. -/
theorem ruleset_converges {s : Manager} (hserved : s.Converged)
    (hids : ∀ entry ∈ s.entries, entry.id ≠ userRulesId) {ops : List Operation}
    (hops : ∀ op ∈ ops, op.Serving) {labels : List (Label Access Manager)}
    {c : Pool Access Manager Reply} (hrun : Pool.Run machine (together s ops) labels c)
    (hdone : AllCompleted c) : c.state.Converged := by
  have hsound : Sound (s, fun _ => False) := ⟨.inl hserved, hids⟩
  refine converged_of_pays hsound (fun j h => h.elim) ?_ hrun hdone
  intro i p hp
  obtain ⟨op, hop, rfl⟩ := mem_map.mp (mem_of_getElem? hp)
  exact Operation.pays (hops op hop) fun h => h

/-- The list is switched off while the user rules are written. -/
theorem ruleset_converges_one_list :
    ∃ labels c, Pool.Run machine
        (together oneList [.updateList (lit "ads") ⟨some false, none⟩,
          .setUserRules (lit "||ads.example^")]) labels c ∧
      AllCompleted c ∧ c.state.Converged := by
  have hserved : oneList.Converged := (Option.some_get (by decide +kernel)).symm
  refine Pool.exists_run (turns [(0, 1), (1, 6), (0, 1), (1, 8), (0, 11)])
    (fun _ c => c.threads.all completed) (by decide +kernel) fun labels c hrun hend => ?_
  have hdone := allCompleted_of_completed hend
  refine ⟨hdone, ruleset_converges hserved ?_ ?_ hrun hdone⟩
  · intro entry hentry
    rw [mem_singleton.mp hentry]
    decide +kernel
  · intro op hop
    simp only [mem_cons, not_mem_nil, or_false] at hop
    rcases hop with rfl | rfl <;> trivial

/-- A host that the ruleset decides and a compile would not. -/
def Manager.stale (s : Manager) (host : Bytes) : Bool :=
  Matcher.decides s.matcher host &&
    (buildMatcher s.currentTexts s.policies).all fun m => !Matcher.decides m host

lemma Manager.not_converged {s : Manager} (h : s.stale host = true) :
    ¬ s.Converged := by
  intro hconv
  rw [Manager.stale, hconv, Bool.and_eq_true] at h
  simp at h

/-- A list under the id of the user rules. -/
def sharedId : Manager :=
  { emptyManager with
    entries := [⟨0, userRulesId, lit "https://lists.example/ads.txt"⟩]
    enabled := fun _ => true
    nextPtr := 1 }

/-- Two removals of that list beside a write of the user rules. -/
def removalsAndWrite : List Operation :=
  [.removeList userRulesId, .removeList userRulesId, .setUserRules (lit "||ads.example^")]

/-- The second removal deletes what the write has stored, finds its list gone and
does not compile. -/
theorem stale_after_removals :
    sharedId.Converged ∧ ∃ labels c,
      Pool.Run machine (together sharedId removalsAndWrite) labels c ∧ AllCompleted c ∧
        ¬ c.state.Converged := by
  have hserved : sharedId.Converged := (Option.some_get (by decide +kernel)).symm
  refine ⟨hserved, ?_⟩
  refine Pool.exists_run (turns [(0, 1), (1, 1), (0, 14), (2, 11), (1, 5)])
    (fun _ c => c.threads.all completed ∧ c.state.stale (lit "ads.example")) (by decide +kernel) ?_
  exact fun _ _ _ hend => ⟨allCompleted_of_completed hend.1, Manager.not_converged hend.2⟩

end Converging

end FastAdHunter.Rules.Lifecycle
