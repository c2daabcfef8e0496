import FastAdHunter.Lib.Alone
import FastAdHunter.Rules.Lifecycle.Convergence

/-!
# Calls that are dropped and repeated

A request whose client goes away is dropped where it waits: what it has done stays,
the locks it held are released, and the rest is not done. An update of a list
changes its switch, and a refresh of all lists stores new texts, before the ruleset
is compiled. When such a call is repeated, it compiles only if it finds a change to
make of its own.
-/

namespace FastAdHunter.Rules.Lifecycle

open Lib List

section News

/-- A body for this list would be stored: it is new, the list is registered, and
nothing speaks against it. -/
def Manager.Accepts (s : Manager) (entry : Entry) (text : Bytes) : Prop :=
  s.text entry.id ≠ some text ∧
    (s.entries.find? (·.id == entry.id)).any (·.ptr == entry.ptr) = true ∧
    rejectionReason text (s.compiled entry.id) (statsOf text) = none

def Access.Brings {β : Type} : Access β → β → Manager → Prop
  | .fetch entry _, .ok (.body text _), s => s.Accepts entry text
  | _, _, _ => False

/-- The step brings a text that would be stored. -/
def Brings (l : Label Access Manager) : Prop :=
  l.access.2.Brings l.result l.before

/-- Whether some source has brought a text that would be stored. -/
def noteNews (l : Label Access Manager) (news : Prop) : Prop :=
  news ∨ Brings l

lemma recorded_noteNews_iff (labels : List (Label Access Manager)) (news : Prop) :
    recorded noteNews news labels ↔ news ∨ ∃ l ∈ labels, Brings l := by
  induction labels generalizing news with
  | nil => simp [recorded]
  | cons l labels ih =>
    rw [exists_mem_cons_iff, ← or_assoc]
    exact ih (noteNews l news)

/-- The manager by itself, with the news so far. -/
def ByItself {α : Type} (Q : α → Manager → Prop → Prop) (p : Prog Access α) (s : Manager)
    (news : Prop) : Prop :=
  Alone (machine.ghost noteNews) 0 (fun _ => True) (fun _ => True) (fun a c => Q a c.1 c.2) p
    (s, news)

variable {α β : Type} {s : Manager} {news : Prop}

lemma ByItself.bind (h : ByItself (fun a t news => ByItself Q (k a) t news) p s news) :
    ByItself Q (p >>= k) s news :=
  Alone.bind h

lemma ByItself.mono
    (h : ByItself Q p s news) (hQ : ∀ a t news, Q a t news → Q' a t news) : ByItself Q' p s news :=
  Alone.mono h fun a c => hQ a c.1 c.2

lemma ByItself.act {next : β → Prog Access α} (h : ∀ x b t, Access.run op 0 x s = some (b, t) →
      ByItself Q (next b) t (noteNews ⟨0, ⟨β, op⟩, b, s, t⟩ news)) :
    ByItself Q (.act op next) s news := by
  intro x b c hrun _
  obtain ⟨hop, hghost⟩ := Machine.ghost_run hrun
  obtain ⟨t, news'⟩ := c
  simp only at hghost
  subst hghost
  exact ⟨trivial, h x b t hop⟩

end News

section Steady

/-- What a refresh may leave as it was: all that a compile reads, the ruleset and
the status of the lists. -/
structure SameView (s t : Manager) : Prop where
  entries : s.entries = t.entries
  enabled : s.enabled = t.enabled
  pending : s.pending = t.pending
  raw : s.raw = t.raw
  policies : s.policies = t.policies
  matcher : s.matcher = t.matcher
  status : s.status = t.status

lemma SameView.refl (s : Manager) : SameView s s :=
  ⟨rfl, rfl, rfl, rfl, rfl, rfl, rfl⟩

variable {s t : Manager}

lemma SameView.trans (hst : SameView s t) (htu : SameView t u) : SameView s u :=
  ⟨hst.entries.trans htu.entries, hst.enabled.trans htu.enabled, hst.pending.trans htu.pending,
    hst.raw.trans htu.raw, hst.policies.trans htu.policies, hst.matcher.trans htu.matcher,
    hst.status.trans htu.status⟩

lemma SameView.text (h : SameView s t) (id : Bytes) : s.text id = t.text id := by
  rw [Manager.text, Manager.text, h.pending, h.raw]

lemma SameView.accepts_iff (h : SameView s t) (entry : Entry) (text : Bytes) :
    s.Accepts entry text ↔ t.Accepts entry text := by
  rw [Manager.Accepts, Manager.Accepts, h.text, h.entries, Manager.compiled, Manager.compiled,
    h.status]

lemma SameView.converged_iff (h : SameView s t) : s.Converged ↔ t.Converged := by
  have hinputs : SameInputs s t := ⟨h.entries, h.enabled, fun id _ => h.text id, h.policies⟩
  rw [Manager.Converged, Manager.Converged, hinputs.currentTexts_eq, h.policies, h.matcher]

def Access.Steady {β : Type} : Access β → Prop
  | .addEntry _ | .removeEntries _ | .swapEnabled _ _ | .resetStatus _ | .removeStatus _
  | .recordStatus _ _ _ | .publishCounts _ | .seedRefreshed _ _ | .fillResults _
  | .insertPending _ _ | .removePending _ | .writeRaw _ _ | .removeRaw _ | .storePolicies _
  | .storeMatcher _ => False
  | _ => True

lemma Access.Steady.sameView {op : Access β} (h : op.Steady) (hrun : op.run 0 x s = some (b, t)) : SameView s t := by
  have hframe := Access.frame hrun
  have huntouched : ∀ cell : Cell, cell.Core → cell ≠ .compileLock → ¬ op.touches cell := by
    cases op <;> first
      | exact h.elim
      | exact fun _ _ _ h => h
      | (rintro _ hcore hlock rfl
         first
           | exact hcore
           | exact hlock rfl)
  have hstatus : ∀ id, ¬ op.touches (.status id) := by
    cases op <;> first
      | exact h.elim
      | exact fun _ h => nomatch h
  exact {
    entries := (hframe.entries (huntouched _ trivial nofun)).symm
    enabled := (hframe.enabled (huntouched _ trivial nofun)).symm
    pending := funext fun id => (hframe.pending id (huntouched _ trivial nofun)).symm
    raw := funext fun id => (hframe.raw id (huntouched _ trivial nofun)).symm
    policies := (hframe.policies (huntouched _ trivial nofun)).symm
    matcher := (hframe.matcher (huntouched _ trivial nofun)).symm
    status := funext fun id => (hframe.status id (hstatus id)).symm }

/-- Accesses that ask no source. -/
def Access.Offline {β : Type} : Access β → Prop
  | .fetch _ _ => False
  | _ => True

lemma Access.Offline.noteNews_eq (h : op.Offline) (b : β)
    (s t : Manager) (news : Prop) : noteNews ⟨0, ⟨β, op⟩, b, s, t⟩ news = news := by
  have hnone : op.Brings b s = False := by
    cases op <;> first | rfl | exact h.elim
  simp only [noteNews, Lifecycle.Brings, hnone, or_false]

variable {α β : Type} {s : Manager} {news : Prop}

lemma ByItself.offline {next : β → Prog Access α} (hop : op.Offline)
    (h : ∀ x b t, Access.run op 0 x s = some (b, t) → ByItself Q (next b) t news) :
    ByItself Q (.act op next) s news := by
  apply ByItself.act
  intro x b t hrun
  rw [hop.noteNews_eq]
  exact h x b t hrun

lemma ByItself.steady {next : β → Prog Access α} (hop : op.Offline) (hsteady : op.Steady)
    (h : ∀ b t, SameView s t → ByItself Q (next b) t news) : ByItself Q (.act op next) s news :=
  ByItself.offline hop fun _ b t hrun => h b t (hsteady.sameView hrun)

lemma ByItself.minor (hp : p.All Access.Minor) :
    ByItself (fun _ t news' => SameCore s t ∧ news' = news) p s news := by
  have hstep : ∀ {δ : Type} (op : Access δ), op.Minor → op.Offline := by
    intro δ op hop
    cases op <;> trivial
  refine Alone.of_all (A := fun c : Manager × Prop => SameCore s c.1 ∧ c.2 = news) ?_ hp
    ⟨⟨rfl, rfl, rfl, rfl, rfl, rfl, rfl⟩, rfl⟩
  rintro δ op hop ⟨t, news₁⟩ x b ⟨u, news₂⟩ ⟨hcore, hnews⟩ hrun _
  obtain ⟨hop', hghost⟩ := Machine.ghost_run hrun
  simp only at hghost hnews
  subst hghost hnews
  have hcore' := hop.quiet.sameCore (i := 0) hop'
  rw [(hstep op hop).noteNews_eq]
  exact ⟨trivial, ⟨hcore.entries.trans hcore'.entries, hcore.enabled.trans hcore'.enabled,
    hcore.pending.trans hcore'.pending, hcore.raw.trans hcore'.raw,
    hcore.policies.trans hcore'.policies, hcore.matcher.trans hcore'.matcher,
    hcore.compileLock.trans hcore'.compileLock⟩, rfl⟩

lemma SameCore.converged_iff (h : SameCore s t) : s.Converged ↔ t.Converged := by
  rw [Manager.Converged, Manager.Converged, h.sameInputs.currentTexts_eq, h.policies, h.matcher]

end Steady

section Compiling

variable {α : Type} {s : Manager} {news : Prop}

/-- The program reads this and changes nothing. -/
def ReadsAlone (v : α) (p : Prog Access α) (s : Manager) (news : Prop) : Prop :=
  ByItself (fun r t news' => r = v ∧ t = s ∧ news' = news) p s news

lemma ReadsAlone.bind (hp : ReadsAlone v p s news) (hk : ReadsAlone w (k v) s news) :
    ReadsAlone w (p >>= k) s news := by
  apply ByItself.bind
  apply ByItself.mono hp
  rintro _ _ _ ⟨rfl, rfl, rfl⟩
  exact hk

lemma ReadsAlone.access (hop : op.Offline)
    (h : ∀ x, Access.run op 0 x s = some (v, s)) : ReadsAlone v (liftM op) s news := by
  apply ByItself.offline hop
  intro x b t hrun
  rw [h x] at hrun
  cases hrun
  exact ⟨rfl, rfl, rfl⟩

lemma ReadsAlone.ret (h : w = v) : ReadsAlone v (.ret w) s news :=
  ⟨h, rfl, rfl⟩

lemma listText_alone (id : Bytes) : ReadsAlone (s.text id) (listText id) s news := by
  refine ReadsAlone.bind (.access (by trivial) fun _ => rfl) ?_
  rw [Manager.text]
  cases s.pending id with
  | some text => exact .ret rfl
  | none => exact .access (by trivial) fun _ => rfl

lemma gatherTexts_alone (ids : List Bytes) :
    ReadsAlone (s.textsOf ids) (gatherTexts ids) s news := by
  induction ids with
  | nil => exact .ret rfl
  | cons id ids ih =>
    refine ReadsAlone.bind (listText_alone id) (ReadsAlone.bind ih (.ret ?_))
    rw [Manager.textsOf, Manager.textsOf, filterMap_cons]
    cases s.text id <;> rfl

lemma enabledEntries_alone (entries : List Entry) :
    ReadsAlone (entries.filter fun entry => s.enabled entry.ptr) (enabledEntries entries) s
      news := by
  induction entries with
  | nil => exact .ret rfl
  | cons entry entries ih =>
    refine ReadsAlone.bind (.access (by trivial) fun _ => rfl) (ReadsAlone.bind ih (.ret ?_))
    rw [filter_cons]

/-- **A compile by itself** builds the ruleset of the current texts and policies. -/
theorem compile_alone :
    ReadsAlone ((buildMatcher s.currentTexts s.policies).map fun matcher =>
      (matcher, statsFor s.currentTexts)) compile s news := by
  refine ReadsAlone.bind (.access (by trivial) fun _ => rfl) ?_
  refine ReadsAlone.bind (enabledEntries_alone s.entries) ?_
  refine ReadsAlone.bind (gatherTexts_alone _) ?_
  refine ReadsAlone.bind (gatherTexts_alone _) ?_
  exact ReadsAlone.bind (.access (by trivial) fun _ => rfl) (.ret rfl)

lemma compileAndSwap_alone :
    ByItself (fun r t news' => (r.isSome → t.Converged) ∧ news' = news) compileAndSwap s news := by
  apply ByItself.bind
  apply ByItself.mono compile_alone
  rintro r t news' ⟨hr, rfl, rfl⟩
  cases hbuild : buildMatcher t.currentTexts t.policies with
  | none =>
    rw [hbuild] at hr
    subst hr
    exact ⟨nofun, rfl⟩
  | some matcher =>
    rw [hbuild] at hr
    subst hr
    apply ByItself.offline (by trivial)
    intro x b u hrun
    cases hrun
    apply ByItself.offline (by trivial)
    intro y b u hrun
    cases hrun
    exact ⟨fun _ => hbuild, rfl⟩

lemma recompile_alone :
    ByItself (fun r t news' => (r.isSome → t.Converged) ∧ news' = news) recompile s news := by
  simp only [recompile, Prog.lift_bind]
  apply ByItself.steady (by trivial) (by trivial)
  intro _ t _
  apply ByItself.bind
  apply compileAndSwap_alone.mono
  rintro r u _ ⟨hconv, rfl⟩
  apply ByItself.steady (by trivial) (by trivial)
  intro _ v hview
  exact ⟨fun hr => hview.converged_iff.mp (hconv hr), rfl⟩

end Compiling

section Refreshing

variable {s : Manager} {news : Prop}

/-- A refresh that stores nothing leaves everything as it was, and stores nothing
exactly when no source brings anything. -/
def StoresNews (s : Manager) (news stored : Prop) (t : Manager) (news' : Prop) : Prop :=
  (stored ∧ news') ∨ (¬ stored ∧ SameView s t ∧ news' = news)

lemma commitRaw_alone (id text : Bytes) :
    ByItself (fun _ _ news' => news' = news) (commitRaw id text) s news := by
  apply ByItself.offline (by trivial)
  intro x written t _
  cases written with
  | true | false => exact ByItself.offline (by trivial) fun _ _ _ _ => rfl

lemma cacheValidators_alone (id : Bytes) (validators : Validators) :
    ByItself (fun _ t news' => SameView s t ∧ news' = news) (cacheValidators id validators) s
      news := by
  rw [cacheValidators]
  split
  all_goals exact ByItself.steady (by trivial) (by trivial) fun _ _ hview => ⟨hview, rfl⟩

lemma commitChecked_alone (hnew : s.text entry.id ≠ some text) (validators : Validators) :
    ByItself (fun r t news' => (r = .ok .committed ∧ s.Accepts entry text ∧ news' = news) ∨
        (r ≠ .ok .committed ∧ ¬ s.Accepts entry text ∧ SameView s t ∧ news' = news))
      (commitChecked entry text validators (s.compiled entry.id)) s news := by
  simp only [commitChecked, Prog.lift_bind]
  apply ByItself.offline (by trivial)
  intro x live t hrun
  cases hrun
  split
  · next hlive =>
    have hstatus : ReadsAlone (if (s.compiled entry.id).isSome then none else s.status entry.id)
        (if (s.compiled entry.id).isSome then pure none else liftM (Access.status entry.id)) s
        news := by
      split
      · exact .ret rfl
      · exact .access (by trivial) fun _ => rfl
    apply ByItself.bind
    apply ByItself.mono hstatus
    rintro status t _ ⟨rfl, rfl, rfl⟩
    -- the baseline is what the list contributes, read before the fetch or now
    have hbaseline : (t.compiled entry.id).or
        ((if (t.compiled entry.id).isSome then none else t.status entry.id).bind
          ListStatus.compiled) = t.compiled entry.id := by
      cases hcompiled : t.compiled entry.id with
      | some counts => rfl
      | none => exact hcompiled
    rw [hbaseline]
    cases hreason : rejectionReason text (t.compiled entry.id) (statsOf text) with
    | some reason =>
      refine .inr ⟨(by rintro ⟨⟩), fun haccepts => ?_, .refl t, rfl⟩
      rw [haccepts.2.2] at hreason
      cases hreason
    | none =>
      apply ByItself.bind
      apply (commitRaw_alone entry.id text).mono
      rintro _ u _ rfl
      apply ByItself.bind
      apply (cacheValidators_alone entry.id validators).mono
      rintro _ v _ ⟨-, rfl⟩
      exact .inl ⟨rfl, ⟨hnew, hlive, hreason⟩, rfl⟩
  · next hgone => exact .inr ⟨(by rintro ⟨⟩), fun haccepts => hgone haccepts.2.1, .refl s, rfl⟩

lemma fetchUnderLock_alone (entry : Entry) :
    ByItself (fun r t news' => StoresNews s news (r = .ok .committed) t news')
      (fetchUnderLock entry) s news := by
  simp only [fetchUnderLock, Prog.lift_bind]
  apply ByItself.steady (by trivial) (by trivial)
  intro _ s₁ hview₁
  apply ByItself.offline (by trivial)
  intro x status t hrun
  cases hrun
  apply ByItself.offline (by trivial)
  intro x stored t hrun
  cases hrun
  apply ByItself.act
  intro x outcome s₂ hrun
  have hview : SameView s s₂ := hview₁.trans (Access.Steady.sameView (by trivial) hrun)
  rcases outcome with error | _ | ⟨text, validators⟩
  · exact .inr ⟨by rintro ⟨⟩, hview, or_false news⟩
  · exact .inr ⟨by rintro ⟨⟩, hview, or_false news⟩
  · have hnews : noteNews ⟨0, ⟨_, .fetch entry (s₁.storedValidators entry.id)⟩,
        .ok (.body text validators), s₁, s₂⟩ news = (news ∨ s₂.Accepts entry text) := by
      rw [← (Access.Steady.sameView (by trivial) hrun).accepts_iff entry text]
      rfl
    rw [hnews]
    apply ByItself.bind
    apply ByItself.mono (listText_alone entry.id)
    rintro cached s₂ _ ⟨rfl, rfl, rfl⟩
    split
    · next hsame =>
      apply ByItself.bind
      apply (cacheValidators_alone entry.id validators).mono
      rintro _ t _ ⟨hview', rfl⟩
      have hold : ¬ s₂.Accepts entry text := fun haccepts => haccepts.1 hsame
      exact .inr ⟨(by rintro ⟨⟩), hview.trans hview', by simp [hold]⟩
    · next hnew =>
      apply ByItself.steady (by trivial) (by trivial)
      intro _ s₃ hview₃
      have hcompiled : (s₁.status entry.id).bind ListStatus.compiled =
          s₃.compiled entry.id := by
        rw [← hview₁.status, (hview.trans hview₃).status]
        rfl
      rw [hcompiled]
      apply ByItself.bind
      apply (commitChecked_alone (hview₃.text entry.id ▸ hnew) validators).mono
      rintro r s₄ _ (⟨rfl, haccepts, rfl⟩ | ⟨hr, hrefused, hview₄, rfl⟩)
      · refine ByItself.steady (by trivial) (by trivial) fun _ _ _ => .inl ⟨rfl, .inr ?_⟩
        exact (hview₃.accepts_iff entry text).mpr haccepts
      · refine ByItself.steady (by trivial) (by trivial) fun _ s₅ hview₅ => .inr ⟨hr, ?_, ?_⟩
        · exact ((hview.trans hview₃).trans hview₄).trans hview₅
        · have hrefused' : ¬ s₂.Accepts entry text := by
            rwa [hview₃.accepts_iff]
          simp [hrefused']

lemma fetchAndCommit_alone (entry : Entry) :
    ByItself (fun r t news' => StoresNews s news (r = .ok .committed) t news')
      (fetchAndCommit entry) s news := by
  simp only [fetchAndCommit, Prog.lift_bind]
  apply ByItself.steady (by trivial) (by trivial)
  intro _ t hview
  apply ByItself.bind
  apply (fetchUnderLock_alone entry).mono
  intro r u news' hstores
  apply ByItself.steady (by trivial) (by trivial)
  intro _ v hview'
  rcases hstores with ⟨hr, hnews⟩ | ⟨hr, hview'', hnews⟩
  · exact .inl ⟨hr, hnews⟩
  · exact .inr ⟨hr, (hview.trans hview'').trans hview', hnews⟩

lemma fetchEach_alone (entries : List Entry) :
    ByItself (fun r t news' => StoresNews s news (anyCommitted r = true) t news')
      (fetchEach entries) s news := by
  induction entries generalizing s news with
  | nil => exact .inr ⟨by simp [anyCommitted], .refl s, rfl⟩
  | cons entry entries ih =>
    apply ByItself.bind
    apply (fetchAndCommit_alone entry).mono
    intro r t news₁ hfirst
    apply ByItself.bind
    apply ih.mono
    intro rest u news₂ hrest
    have hany : anyCommitted ((entry, r) :: rest) = true ↔
        r = .ok .committed ∨ anyCommitted rest = true := by
      rw [anyCommitted, any_cons, Bool.or_eq_true]
      refine or_congr ?_ Iff.rfl
      cases r with
      | error | ok => simp [Except.toOption]
    show StoresNews s news (anyCommitted ((entry, r) :: rest) = true) u news₂
    rw [StoresNews, hany]
    rcases hrest with ⟨hsome, hnews₂⟩ | ⟨hnone, hview₂, rfl⟩
    · exact .inl ⟨.inr hsome, hnews₂⟩
    · rcases hfirst with ⟨hr, hnews₁⟩ | ⟨hr, hview₁, rfl⟩
      · exact .inl ⟨.inl hr, hnews₁⟩
      · exact .inr ⟨not_or.mpr ⟨hr, hnone⟩, hview₁.trans hview₂, rfl⟩

lemma refreshAll_alone :
    ByItself (fun r t news' => r.isSome → (t.Converged ↔ s.Converged ∨ news')) refreshAll s
      False := by
  simp only [refreshAll, Prog.lift_bind]
  apply ByItself.offline (by trivial)
  intro x all t hrun
  cases hrun
  apply ByItself.bind
  apply ByItself.mono (enabledEntries_alone s.entries)
  rintro entries t _ ⟨rfl, rfl, rfl⟩
  apply ByItself.bind
  apply (fetchEach_alone _).mono
  intro outcomes u news' hstores
  -- the results are recorded without touching what a compile reads
  have hrecord : ∀ (stats : Stats) (v : Manager), (v.Converged ↔ t.Converged ∨ news') →
      ByItself (fun r w news' => r.isSome → (w.Converged ↔ t.Converged ∨ news'))
        (recordEach stats outcomes >>= fun results => pure (some results)) v news' := by
    intro stats v hv
    apply ByItself.bind
    apply (ByItself.minor (recordEach_minor stats outcomes)).mono
    rintro results w _ ⟨hcore, rfl⟩ _
    exact hcore.converged_iff.symm.trans hv
  rcases hstores with ⟨hsome, hnews⟩ | ⟨hnone, hview, rfl⟩
  · rw [if_pos hsome]
    apply ByItself.bind
    apply recompile_alone.mono
    rintro r v _ ⟨hconv, rfl⟩
    cases r with
    | none => rintro ⟨⟩
    | some stats => exact hrecord stats v (iff_of_true (hconv rfl) (.inr hnews))
  · rw [if_neg hnone]
    exact hrecord _ u (by rw [or_false]; exact hview.converged_iff.symm)

end Refreshing

section Updating

variable {s : Manager} {news : Prop}

/-- The list is registered, and its switch is not yet where the patch wants it. -/
def Manager.Switches (s : Manager) (id : Bytes) (patch : ListPatch) : Prop :=
  ∃ entry enabled, s.entries.find? (·.id == id) = some entry ∧ patch.enabled = some enabled ∧
    s.enabled entry.ptr ≠ enabled

lemma setHours_alone (entry : Entry) (hours : Option (Option Nat)) :
    ByItself (fun _ t news' => SameView s t ∧ news' = news) (setHours entry hours) s news := by
  cases hours with
  | none => exact ⟨.refl s, rfl⟩
  | some hours => exact ByItself.steady (by trivial) (by trivial) fun _ _ hview => ⟨hview, rfl⟩

lemma setEnabled_alone (entry : Entry) (enabled : Option Bool) :
    ByItself (fun r t _ => (r = true ↔ ∃ e, enabled = some e ∧ s.enabled entry.ptr ≠ e) ∧
      (r = false → SameView s t)) (setEnabled entry enabled) s news := by
  cases enabled with
  | none => exact ⟨by simp, fun _ => .refl s⟩
  | some enabled =>
    apply ByItself.offline (by trivial)
    intro x before t hrun
    cases hrun
    refine ⟨by simp, fun hsame => ?_⟩
    have hvalue : s.enabled entry.ptr = enabled := by simpa using hsame
    refine ⟨rfl, ?_, rfl, rfl, rfl, rfl, rfl⟩
    exact (Function.update_eq_self_iff.mpr hvalue.symm).symm

lemma updateList_alone (id : Bytes) (patch : ListPatch) :
    ByItself (fun r t _ => r.isSome → (t.Converged ↔ s.Converged ∨ s.Switches id patch))
      (updateList id patch) s news := by
  simp only [updateList, Prog.lift_bind]
  apply ByItself.offline (by trivial)
  intro x found t hrun
  cases hrun
  cases hfind : s.entries.find? (·.id == id) with
  | none =>
    have hnone : ¬ s.Switches id patch := by
      rintro ⟨entry, enabled, hsome, -⟩
      rw [hfind] at hsome
      cases hsome
    exact fun _ => (or_iff_left hnone).symm
  | some entry =>
    have hswitches : s.Switches id patch ↔
        ∃ e, patch.enabled = some e ∧ s.enabled entry.ptr ≠ e := by
      simp [Manager.Switches, hfind]
    apply ByItself.bind
    apply (setEnabled_alone entry patch.enabled).mono
    rintro changed t news₁ ⟨hchanged, hsame⟩
    apply ByItself.bind
    apply (setHours_alone entry patch.refreshHours).mono
    rintro _ u _ ⟨hview, rfl⟩
    -- the list as it is answered with is read after the compile
    have hview' : ∀ (v : Manager) (news₂ : Prop),
        (v.Converged ↔ s.Converged ∨ s.Switches id patch) →
        ByItself (fun (r : Option (Except LifecycleError ListEntryView)) w _ => r.isSome → (w.Converged ↔ s.Converged ∨ s.Switches id patch))
          (view entry >>= fun answer => pure (some (Except.ok answer))) v news₂ := by
      intro v news₂ hv
      apply ByItself.bind
      apply (ByItself.minor (view_minor entry)).mono
      rintro answer w _ ⟨hcore, rfl⟩ _
      exact hcore.converged_iff.symm.trans hv
    cases changed with
    | true =>
      apply ByItself.bind
      apply ByItself.bind
      apply recompile_alone.mono
      rintro r v _ ⟨hconv, rfl⟩
      cases r with
      | none => rintro ⟨⟩
      | some stats =>
        exact hview' v _ (iff_of_true (hconv rfl) (.inr (hswitches.mpr (hchanged.mp rfl))))
    | false =>
      apply hview'
      rw [hswitches, ← hchanged]
      simpa using ((hsame rfl).trans hview).converged_iff.symm

end Updating

/-- The calls that are repeated: updates of a list, and refreshes of all. -/
def Operation.Repeated : Operation → Prop
  | .updateList _ _ | .refreshAll => True
  | _ => False

/-- The repeated call has something to do: a switch to change, or a text to store
that a source brings. -/
def HasWork (op : Operation) (s : Manager) (labels : List (Label Access Manager)) : Prop :=
  match op with
  | .updateList id patch => s.Switches id patch
  | .refreshAll => ∃ l ∈ labels, Brings l
  | _ => False

/-- **When a repeated call heals.** Whatever was dropped before: the ruleset that
serves when the call completes is that of the current texts and policies exactly
when it already was, or when the call has something to do. -/
theorem retry_heals_iff {op : Operation} (hop : op.Repeated) {s : Manager}
    {labels : List (Label Access Manager)} {c : Pool Access Manager Reply} {reply : Reply}
    (hrun : Pool.Run machine (together s [op]) labels c) (hdone : c.threads = [.ret reply])
    (hreply : reply ≠ .panicked) : c.state.Converged ↔ s.Converged ∨ HasWork op s labels := by
  have hghost : Pool.Run (machine.ghost noteNews) _ _ _ := hrun.ghost False
  match op with
  | .updateList id patch =>
    have halone : ByItself (fun r t _ => r ≠ .panicked →
        (t.Converged ↔ s.Converged ∨ s.Switches id patch))
        (Operation.updateList id patch).program s False := by
      apply ByItself.bind
      apply (updateList_alone id patch).mono
      intro r t news hr
      cases r with
      | none => exact fun hne => absurd rfl hne
      | some result => exact fun _ => hr rfl
    obtain ⟨-, p, hp, hend⟩ := hghost.alone (by simp) halone
    rw [hdone] at hp
    cases hp
    exact hend hreply
  | .refreshAll =>
    have halone : ByItself (fun r t news => r ≠ .panicked →
        (t.Converged ↔ s.Converged ∨ news)) Operation.refreshAll.program s False := by
      apply ByItself.bind
      apply refreshAll_alone.mono
      intro r t news hr
      cases r with
      | none => exact fun hne => absurd rfl hne
      | some results => exact fun _ => hr rfl
    obtain ⟨-, p, hp, hend⟩ := hghost.alone (by simp) halone
    rw [hdone] at hp
    cases hp
    rw [hend hreply, recorded_noteNews_iff, false_or]
    rfl

/-- Accesses that the code awaits: locks, files and sources. -/
def Access.awaits {β : Type} : Access β → Bool
  | .lockRefresh _ | .lockCompile | .fetch _ _ | .readRaw _ | .writeRaw _ _ | .readValidators _
  | .writeValidators _ _ | .removeValidators _ => true
  | _ => false

/-- A call that waits, where it can be dropped. -/
def waiting : Prog Access Reply → Bool
  | .act op _ => op.awaits
  | .ret _ => false

/-- The locks of a dropped call are released. -/
def Manager.dropped (s : Manager) (i : Nat) : Manager :=
  { s with
    compileLock := if s.compileLock = some i then none else s.compileLock
    refreshLock := fun ptr => if s.refreshLock ptr = some i then none else s.refreshLock ptr }

/-- The call is dropped where it waits, repeated by itself and completed, and the
ruleset is not that of the current texts and policies. -/
def StaysStale (s : Manager) (op : Operation) : Prop :=
  s.Converged ∧ ∃ labels c labels' c' reply,
    Pool.Run machine (together s [op]) labels c ∧ c.threads.all waiting = true ∧
      Pool.Run machine (together (c.state.dropped 0) [op]) labels' c' ∧
      c'.threads = [.ret reply] ∧ reply ≠ .panicked ∧ ¬ c'.state.Converged

lemma eq_ret_of_completed (hlength : threads.length = 1)
    (h : threads.all completed = true) : ∃ reply, threads = [.ret reply] ∧ reply ≠ .panicked := by
  obtain ⟨p, rfl⟩ := length_eq_one_iff.mp hlength
  match p, h with
  | .ret reply, h =>
    refine ⟨reply, rfl, ?_⟩
    rintro rfl
    cases h

lemma staysStale_of_exec (hserved : s.Converged) (first again : List (Nat × Choice)) (host : Bytes)
    (h : ((together s [op]).exec machine first).any (fun r => r.2.threads.all waiting &&
      ((together (r.2.state.dropped 0) [op]).exec machine again).any fun q =>
        q.2.threads.all completed && q.2.state.stale host) = true) : StaysStale s op := by
  obtain ⟨⟨labels, c⟩, hc, hend⟩ := (Option.any_eq_true _ _).mp h
  obtain ⟨hwaiting, hagain⟩ := Bool.and_eq_true_iff.mp hend
  obtain ⟨⟨labels', c'⟩, hc', hend'⟩ := (Option.any_eq_true _ _).mp hagain
  obtain ⟨hdone, hstale⟩ := Bool.and_eq_true_iff.mp hend'
  have hrun' := Pool.run_of_exec hc'
  obtain ⟨reply, hend, hreply⟩ := eq_ret_of_completed hrun'.threads_length hdone
  exact ⟨hserved, labels, c, labels', c', reply, Pool.run_of_exec hc, hwaiting, hrun', hend, hreply,
    Manager.not_converged hstale⟩

/-- The list as it was compiled, and what its source has now. -/
def oldText : Bytes := lit "||old.example^"
def newText : Bytes := lit "||new.example^"

/-- **Dropped calls stay stale.** A list is switched off, or all lists are
refreshed, the client goes away while the compile reads a file, and the same call
again finds the switch set, or the text stored. -/
theorem dropped_calls_stay_stale :
    StaysStale (storedList oldText) (.updateList (lit "ads") ⟨some false, none⟩) ∧
      StaysStale (storedList oldText) .refreshAll := by
  have hserved : (storedList oldText).Converged := by
    have hbuilt : (buildMatcher [(lit "ads", oldText)] defaultPolicies).isSome = true := by
      decide +kernel
    obtain ⟨matcher, hmatcher⟩ := Option.isSome_iff_exists.mp hbuilt
    have htexts : (storedList oldText).currentTexts = [(lit "ads", oldText)] := by
      decide +kernel
    rfl
  constructor
  · exact staysStale_of_exec hserved (turns [(0, 6)]) (turns [(0, 4)]) (lit "old.example")
      (by decide +kernel)
  · exact staysStale_of_exec hserved
      (turns [(0, 6)] ++ [(0, answered newText)] ++ turns [(0, 13)])
      (turns [(0, 6)] ++ [(0, answered newText)] ++ turns [(0, 6)]) (lit "old.example")
      (by decide +kernel)

/-- A call that finds the list switched on. -/
theorem retry_heals_iff_switched :
    ∃ labels c reply, Pool.Run machine
        (together (storedList oldText) [.updateList (lit "ads") ⟨some false, none⟩]) labels c ∧
      c.threads = [.ret reply] ∧ reply ≠ .panicked ∧ c.state.Converged := by
  obtain ⟨⟨labels, c⟩, hc, hend⟩ := (Option.any_eq_true _ _).mp
    (show ((together (storedList oldText) [.updateList (lit "ads") ⟨some false, none⟩]).exec machine
      (turns [(0, 13)])).any (fun r => r.2.threads.all completed) = true by decide +kernel)
  have hrun := Pool.run_of_exec hc
  obtain ⟨reply, hdone, hreply⟩ := eq_ret_of_completed hrun.threads_length hend
  refine ⟨labels, c, reply, hrun, hdone, hreply, ?_⟩
  have hswitches : (storedList oldText).Switches (lit "ads") ⟨some false, none⟩ :=
    ⟨⟨0, lit "ads", lit "https://lists.example/ads.txt"⟩, false, rfl, rfl, nofun⟩
  exact (retry_heals_iff (by trivial) hrun hdone hreply).mpr (.inr hswitches)

end FastAdHunter.Rules.Lifecycle
