import FastAdHunter.Lib.Interference
import FastAdHunter.Rules.Lifecycle.Operations

/-!
# Who still has to compile

Operations change the texts, the switches and the policies, partly under the
compile lock and partly outside it, and each that changes something compiles
afterwards. A thread is in debt from such a change until it publishes a ruleset.

A compile reads its inputs one by one while others go on. What it read of the
switches and the policies may be outdated when it publishes, but whoever changed
them is in debt then and compiles later. So the ruleset that serves is always the
one of the current inputs, or somebody is in debt.
-/

namespace FastAdHunter.Rules.Lifecycle

open Lib

namespace Manager

/-- The lists that take part, in order. -/
def enabledIds (s : Manager) : List Bytes :=
  (s.entries.filter fun entry => s.enabled entry.ptr).map Entry.id

/-- The texts of these lists, where there is one. -/
def textsOf (s : Manager) (ids : List Bytes) : List (Bytes × Bytes) :=
  ids.filterMap fun id => (s.text id).map fun text => (id, text)

/-- The texts that make up the ruleset: those of the enabled lists, then the user
rules. -/
def currentTexts (s : Manager) : List (Bytes × Bytes) :=
  s.textsOf s.enabledIds ++ s.textsOf [userRulesId]

/-- The ruleset that serves is the one of the current texts under the current
policies. -/
def Converged (s : Manager) : Prop :=
  buildMatcher s.currentTexts s.policies = some s.matcher

/-- A text that a compile may read: that of a registered list or the user
rules. -/
def Reads (s : Manager) (id : Bytes) : Prop :=
  id = userRulesId ∨ ∃ entry ∈ s.entries, entry.id = id

end Manager

/-- Two states that a compile cannot tell apart. -/
structure SameInputs (s t : Manager) : Prop where
  entries : s.entries = t.entries
  enabled : s.enabled = t.enabled
  text : ∀ id, s.Reads id → s.text id = t.text id
  policies : s.policies = t.policies

lemma SameInputs.refl (s : Manager) : SameInputs s s :=
  ⟨rfl, rfl, fun _ _ => rfl, rfl⟩

lemma SameInputs.trans (hst : SameInputs s t) (htu : SameInputs t u) :
    SameInputs s u where
  entries := hst.entries.trans htu.entries
  enabled := hst.enabled.trans htu.enabled
  text id hid := by
    have hid' : t.Reads id := by
      rwa [Manager.Reads, ← hst.entries]
    rw [hst.text id hid, htu.text id hid']
  policies := hst.policies.trans htu.policies

lemma SameInputs.currentTexts_eq (h : SameInputs s t) :
    s.currentTexts = t.currentTexts := by
  have hids : s.enabledIds = t.enabledIds := by
    rw [Manager.enabledIds, Manager.enabledIds, h.entries, h.enabled]
  have htexts : ∀ ids : List Bytes, (∀ id ∈ ids, s.Reads id) → s.textsOf ids = t.textsOf ids := by
    intro ids hreads
    apply List.filterMap_congr
    intro id hid
    rw [h.text id (hreads id hid)]
  rw [Manager.currentTexts, Manager.currentTexts, ← hids, htexts s.enabledIds,
    htexts [userRulesId]]
  · intro id hid
    exact .inl (List.mem_singleton.mp hid)
  · intro id hid
    obtain ⟨entry, hentry, rfl⟩ := List.mem_map.mp hid
    exact .inr ⟨entry, (List.mem_filter.mp hentry).1, rfl⟩

lemma SameInputs.converged (h : SameInputs s t) (hm : s.matcher = t.matcher)
    (hs : s.Converged) : t.Converged := by
  rw [Manager.Converged, ← h.currentTexts_eq, ← h.policies, ← hm]
  exact hs

section Debt

/-- Accesses that put a new ruleset in place. -/
def Access.publishes {β : Type} : Access β → Bool
  | .storeMatcher _ => true
  | _ => false

/-- The threads in debt: a change of the inputs runs it up, and publishing pays
it. -/
abbrev Debts := Nat → Prop

def noteDebt (l : Label Access Manager) (debts : Debts) : Debts := fun j =>
  if j = l.thread then
    l.access.2.publishes = false ∧ (debts l.thread ∨ ¬ SameInputs l.before l.after)
  else debts j

abbrev Ledger := Manager × Debts

/-- Somebody else will compile. -/
def OthersOwe (i : Nat) (c : Ledger) : Prop :=
  ∃ j, j ≠ i ∧ c.2 j

/-- What one step of a thread does to the others. -/
structure Guar (i : Nat) (c d : Ledger) : Prop where
  debts : ∀ j, j ≠ i → (c.2 j ↔ d.2 j)
  change : ¬ SameInputs c.1 d.1 → d.2 i
  publish : (c.1.matcher = d.1.matcher ∧ (c.2 i → d.2 i)) ∨
    (c.1.compileLock = some i ∧ (d.1.Converged ∨ OthersOwe i d))
  locked : c.1.compileLock ≠ some i →
    c.1.entries = d.1.entries ∧ c.1.pending = d.1.pending ∧ c.1.raw = d.1.raw
  lock : ∀ j, j ≠ i → (c.1.compileLock = some j ↔ d.1.compileLock = some j)
  entries : d.1.entries ⊆ c.1.entries

/-- What a thread can rely on: its debt and its hold on the lock are its own, and
while it holds the lock the texts and the registered lists stay. -/
structure Rely (i : Nat) (c d : Ledger) : Prop where
  debt : c.2 i ↔ d.2 i
  lock : c.1.compileLock = some i ↔ d.1.compileLock = some i
  held : c.1.compileLock = some i →
    c.1.entries = d.1.entries ∧ c.1.pending = d.1.pending ∧ c.1.raw = d.1.raw
  inputs : c.1.compileLock = some i → SameInputs c.1 d.1 ∨ OthersOwe i d
  others : c.1.compileLock = some i → OthersOwe i c → OthersOwe i d

lemma stable_rely : Stable Rely where
  refl i c := ⟨Iff.rfl, Iff.rfl, fun _ => ⟨rfl, rfl, rfl⟩, fun _ => .inl (.refl _), fun _ h => h⟩
  trans i c d e hcd hde := by
    refine ⟨hcd.debt.trans hde.debt, hcd.lock.trans hde.lock, ?_, ?_, ?_⟩
    · intro hc
      obtain ⟨h₁, h₂, h₃⟩ := hcd.held hc
      obtain ⟨h₁', h₂', h₃'⟩ := hde.held (hcd.lock.mp hc)
      exact ⟨h₁.trans h₁', h₂.trans h₂', h₃.trans h₃'⟩
    · intro hc
      have hd := hcd.lock.mp hc
      rcases hcd.inputs hc with hsame | howe
      · rcases hde.inputs hd with hsame' | howe'
        · exact .inl (hsame.trans hsame')
        · exact .inr howe'
      · exact .inr (hde.others hd howe)
    · intro hc howe
      exact hde.others (hcd.lock.mp hc) (hcd.others hc howe)

lemma Rely.trans (hcd : Rely i c d) (hde : Rely i d e) : Rely i c e :=
  stable_rely.trans i c d e hcd hde

lemma Guar.rely (hij : i ≠ j) (h : Guar i c d) : Rely j c d := by
  have hnot : c.1.compileLock = some j → c.1.compileLock ≠ some i := by
    intro hj hi
    rw [hj] at hi
    exact hij (Option.some.inj hi).symm
  -- a thread that does not hold the lock publishes nothing
  have hkeeps : c.1.compileLock = some j → c.2 i → d.2 i := by
    intro hj hi
    rcases h.publish with ⟨-, hkeep⟩ | ⟨hlock, -⟩
    · exact hkeep hi
    · exact absurd hlock (hnot hj)
  refine ⟨h.debts j hij.symm, h.lock j hij.symm, fun hj => h.locked (hnot hj), ?_, ?_⟩
  · intro hj
    by_cases hsame : SameInputs c.1 d.1
    · exact .inl hsame
    · exact .inr ⟨i, hij, h.change hsame⟩
  · rintro hj ⟨k, hk, howe⟩
    by_cases hki : k = i
    · subst hki
      exact ⟨k, hij, hkeeps hj howe⟩
    · exact ⟨k, hk, (h.debts k hki).mp howe⟩

/-- The ruleset is that of the inputs, or somebody is in debt; and no list is
registered under the id of the user rules. -/
structure Sound (c : Ledger) : Prop where
  served : c.1.Converged ∨ ∃ j, c.2 j
  ids : ∀ entry ∈ c.1.entries, entry.id ≠ userRulesId

lemma Guar.sound (h : Guar i c d) (hc : Sound c) : Sound d where
  ids entry hentry := hc.ids entry (h.entries hentry)
  served := by
    rcases h.publish with ⟨hmatcher, hkeep⟩ | ⟨-, hconv | ⟨j, -, hj⟩⟩
    · by_cases hsame : SameInputs c.1 d.1
      · rcases hc.served with hconv | ⟨j, hj⟩
        · exact .inl (hsame.converged hmatcher hconv)
        · by_cases hji : j = i
          · subst hji
            exact .inr ⟨j, hkeep hj⟩
          · exact .inr ⟨j, (h.debts j hji).mp hj⟩
      · exact .inr ⟨i, h.change hsame⟩
    · exact .inl hconv
    · exact .inr ⟨j, hj⟩

/-- What a thread that follows the discipline achieves. -/
def Pays (i : Nat) {α : Type} (Q : α → Ledger → Prop) (p : Prog Access α) (c : Ledger) : Prop :=
  Holds (machine.ghost noteDebt) Sound Rely Guar i Q p c

variable {α β : Type} {i : Nat} {c : Ledger}

lemma Pays.bind (h : Pays i (fun a d => Pays i Q (k a) d) p c) : Pays i Q (p >>= k) c :=
  Holds.bind stable_rely h

lemma Pays.mono (h : Pays i Q p c) (hQ : ∀ a d, Q a d → Q' a d) : Pays i Q' p c :=
  Holds.mono h hQ

lemma Pays.act (h : ∀ d, Rely i c d → Sound d → ∀ x b t, Access.run op i x d.1 = some (b, t) →
      Guar i d (t, noteDebt ⟨i, ⟨β, op⟩, b, d.1, t⟩ d.2) ∧
        Pays i Q (next b) (t, noteDebt ⟨i, ⟨β, op⟩, b, d.1, t⟩ d.2)) :
    Pays i Q (.act op next) c := by
  intro d hd hsound x b e hrun
  obtain ⟨hop, hghost⟩ := Machine.ghost_run hrun
  obtain ⟨t, debts⟩ := e
  simp only at hghost
  subst hghost
  obtain ⟨hguar, hnext⟩ := h d hd hsound x b t hop
  exact ⟨hguar, hguar.sound hsound, hnext⟩

lemma Pays.ret (h : ∀ d, Rely i c d → Q a d) :
    Pays i Q (.ret a) c :=
  h

lemma Pays.of_rely (h : Pays i Q p c) (hcd : Rely i c d) : Pays i Q p d :=
  Holds.of_rely stable_rely h hcd

end Debt

section Quiet

/-- Accesses that leave alone what a compile reads, the ruleset and the compile
lock. -/
def Access.Quiet {β : Type} : Access β → Prop
  | .addEntry _ | .removeEntries _ | .swapEnabled _ _ | .lockCompile | .unlockCompile
  | .insertPending _ _ | .removePending _ | .writeRaw _ _ | .removeRaw _ | .storePolicies _
  | .storeMatcher _ => False
  | _ => True

lemma Access.Minor.quiet {op : Access β} (h : op.Minor) : op.Quiet := by
  cases op <;> trivial

lemma quiet_of_minor {p : Prog Access α} (h : p.All Access.Minor) :
    p.All Access.Quiet :=
  h.mono fun _ hop => hop.quiet

/-- The parts that quiet accesses leave alone. -/
def Cell.Core : Cell → Prop
  | .refreshHours | .refreshLock | .lastAttempted _ | .status _ | .validators _ => False
  | _ => True

/-- Two states that agree there. -/
structure SameCore (s t : Manager) : Prop where
  entries : s.entries = t.entries
  enabled : s.enabled = t.enabled
  pending : s.pending = t.pending
  raw : s.raw = t.raw
  policies : s.policies = t.policies
  matcher : s.matcher = t.matcher
  compileLock : s.compileLock = t.compileLock

lemma SameCore.sameInputs (h : SameCore s t) : SameInputs s t where
  entries := h.entries
  enabled := h.enabled
  text id _ := by rw [Manager.text, Manager.text, h.pending, h.raw]
  policies := h.policies

variable {α β : Type} {i : Nat} {c d : Ledger}

variable {op : Access β}

lemma Access.Quiet.publishes (h : op.Quiet) : op.publishes = false := by
  cases op <;> first | rfl | exact h.elim

lemma Access.Quiet.untouched (h : op.Quiet) (hcell : cell.Core) :
    ¬ op.touches cell := by
  cases op <;> first
    | exact h.elim
    | exact fun h => h
    | (rintro ⟨id, rfl⟩
       exact hcell)

lemma Access.Quiet.sameCore (h : op.Quiet)
    (hrun : Access.run op i x s = some (b, t)) : SameCore s t := by
  have hframe := Access.frame hrun
  exact {
    entries := (hframe.entries (h.untouched trivial)).symm
    enabled := (hframe.enabled (h.untouched trivial)).symm
    pending := funext fun id => (hframe.pending id (h.untouched trivial)).symm
    raw := funext fun id => (hframe.raw id (h.untouched trivial)).symm
    policies := (hframe.policies (h.untouched trivial)).symm
    matcher := (hframe.matcher (h.untouched trivial)).symm
    compileLock := (hframe.compileLock (h.untouched trivial)).symm }

lemma noteDebt_eq_self (hop : op.publishes = false) (h : SameInputs s t) (b : β) (debts : Debts) :
    noteDebt ⟨i, ⟨β, op⟩, b, s, t⟩ debts = debts := by
  funext j
  rw [noteDebt]
  split
  · next hj =>
    subst hj
    simp [hop, h]
  · rfl

lemma SameCore.rely (h : SameCore c.1 t) : Rely i c (t, c.2) where
  debt := Iff.rfl
  lock := by rw [h.compileLock]
  held _ := ⟨h.entries, h.pending, h.raw⟩
  inputs _ := .inl h.sameInputs
  others _ howe := howe

lemma SameCore.guar (h : SameCore c.1 t) : Guar i c (t, c.2) where
  debts _ _ := Iff.rfl
  change hne := absurd h.sameInputs hne
  publish := .inl ⟨h.matcher, id⟩
  locked _ := ⟨h.entries, h.pending, h.raw⟩
  lock j _ := by rw [h.compileLock]
  entries := by rw [h.entries]; exact List.Subset.refl _

lemma Pays.quiet (hop : op.Quiet)
    (h : ∀ d, Rely i c d → Sound d → ∀ x b t, Access.run op i x d.1 = some (b, t) →
      Pays i Q (next b) d) : Pays i Q (.act op next) c := by
  apply Pays.act
  intro d hd hsound x b t hrun
  have hcore := hop.sameCore hrun
  rw [noteDebt_eq_self hop.publishes hcore.sameInputs]
  exact ⟨hcore.guar, (h d hd hsound x b t hrun).of_rely hcore.rely⟩

lemma Pays.of_all (hp : p.All Access.Quiet) (hc : Rely i d c) :
    Pays i (fun _ e => Rely i d e) p c := by
  apply Holds.of_all (A := Rely i d) _ _ hp hc
  · intro e e' he hde
    exact hde.trans he
  · intro δ op hop e x b e' hde hsound hrun
    obtain ⟨hrun', hghost⟩ := Machine.ghost_run hrun
    obtain ⟨t, debts⟩ := e'
    simp only at hghost hrun'
    subst hghost
    have hcore := hop.sameCore hrun'
    have hguar : Guar i e (t, e.2) := hcore.guar
    rw [noteDebt_eq_self hop.publishes hcore.sameInputs]
    exact ⟨hguar, hguar.sound hsound, hde.trans hcore.rely⟩

end Quiet

section Seeing

/-- The thread holds the compile lock. -/
def Held (i : Nat) (c : Ledger) : Prop :=
  c.1.compileLock = some i

/-- The program returns this value of the state it starts in, or somebody else
will compile later. -/
def Sees (i : Nat) (c : Ledger) {α : Type} (v : α) (p : Prog Access α) : Prop :=
  Pays i (fun r d => Rely i c d ∧ (OthersOwe i d ∨ r = v)) p c

variable {α β : Type} {i : Nat} {c : Ledger}

lemma Rely.keeps_held (h : Rely i c d) (hc : Held i c) : Held i d :=
  h.lock.mp hc

lemma Sees.ret (h : w = v) : Sees i c v (.ret w) :=
  Pays.ret fun _ hd => ⟨hd, .inr h⟩

lemma Sees.access (hop : op.Quiet) (hc : Held i c)
    (h : ∀ d, Rely i c d → ∀ x b t, Access.run op i x d.1 = some (b, t) → OthersOwe i d ∨ b = v) :
    Sees i c v (liftM op) := by
  apply Pays.quiet hop
  intro d hd _ x b t hrun
  apply Pays.ret
  intro e he
  refine ⟨hd.trans he, ?_⟩
  exact (h d hd x b t hrun).imp_left (he.others (hd.keeps_held hc))

lemma Sees.bind {k : α → Prog Access β} (hc : Held i c)
    (hp : Sees i c v p) (hk : Sees i c w (k v)) (hminor : ∀ a, (k a).All Access.Minor) :
    Sees i c w (p >>= k) := by
  apply Pays.bind
  apply Pays.mono hp
  rintro a d ⟨hd, howe | rfl⟩
  · -- what is read from here on is outdated anyway
    apply (Pays.of_all (quiet_of_minor (hminor a)) (stable_rely.refl i d)).mono
    intro b e he
    exact ⟨hd.trans he, .inl (he.others (hd.keeps_held hc) howe)⟩
  · exact hk.of_rely hd

end Seeing

section Compiling

variable {i : Nat} {c : Ledger}

lemma sees_listText (hc : Held i c) (id : Bytes) : Sees i c (c.1.text id) (listText id) := by
  have hpending : Sees i c (c.1.pending id) (liftM (Access.pending id)) := by
    refine Sees.access (by trivial) hc ?_
    intro d hd x b t hrun
    cases hrun
    rw [← (hd.held hc).2.1]
    exact .inr rfl
  have hraw : Sees i c (c.1.raw id) (liftM (Access.readRaw id)) := by
    refine Sees.access (by trivial) hc ?_
    intro d hd x b t hrun
    cases hrun
    rw [← (hd.held hc).2.2]
    exact .inr rfl
  refine Sees.bind hc hpending ?_ ?_
  · rw [Manager.text]
    cases c.1.pending id with
    | some text => exact Sees.ret rfl
    | none => exact hraw
  · rintro (_ | text)
    · exact ⟨trivial, fun _ => trivial⟩
    · trivial

lemma sees_gatherTexts (hc : Held i c) (ids : List Bytes) :
    Sees i c (c.1.textsOf ids) (gatherTexts ids) := by
  induction ids with
  | nil => exact Sees.ret rfl
  | cons id ids ih =>
    refine Sees.bind hc (sees_listText hc id) ?_ ?_
    · refine Sees.bind hc ih (Sees.ret ?_) fun _ => trivial
      rw [Manager.textsOf, Manager.textsOf, List.filterMap_cons]
      cases c.1.text id <;> rfl
    · exact fun _ => (gatherTexts_minor ids).bind fun _ => trivial

lemma sees_enabledEntries (hc : Held i c) (entries : List Entry) :
    Sees i c (entries.filter fun entry => c.1.enabled entry.ptr) (enabledEntries entries) := by
  induction entries with
  | nil => exact Sees.ret rfl
  | cons entry entries ih =>
    have henabled : Sees i c (c.1.enabled entry.ptr) (liftM (Access.isEnabled entry)) := by
      refine Sees.access (by trivial) hc ?_
      intro d hd x b t hrun
      cases hrun
      rcases hd.inputs hc with hsame | howe
      · exact .inr (congrFun hsame.enabled entry.ptr).symm
      · exact .inl howe
    refine Sees.bind hc henabled ?_ ?_
    · refine Sees.bind hc ih (Sees.ret ?_) fun _ => trivial
      rw [List.filter_cons]
    · exact fun _ => (enabledEntries_minor entries).bind fun _ => trivial

/-- What a compile makes of a state that nobody changes. -/
def Manager.build (s : Manager) : Option (Matcher × Stats) :=
  (buildMatcher s.currentTexts s.policies).map fun matcher => (matcher, statsFor s.currentTexts)

lemma sees_compile (hc : Held i c) : Sees i c c.1.build compile := by
  have hentries : Sees i c c.1.entries (liftM Access.entries) := by
    refine Sees.access (by trivial) hc ?_
    intro d hd x b t hrun
    cases hrun
    exact .inr (hd.held hc).1.symm
  have hpolicies : Sees i c c.1.policies (liftM Access.loadPolicies) := by
    refine Sees.access (by trivial) hc ?_
    intro d hd x b t hrun
    cases hrun
    rcases hd.inputs hc with hsame | howe
    · exact .inr hsame.policies.symm
    · exact .inl howe
  have hminor : ∀ lists, (do
      let user ← gatherTexts [userRulesId]
      let policies ← Access.loadPolicies
      pure ((buildMatcher (lists ++ user) policies).map fun matcher =>
        (matcher, statsFor (lists ++ user))) : Prog Access _).All Access.Minor :=
    fun _ => (gatherTexts_minor _).bind fun _ => ⟨trivial, fun _ => trivial⟩
  refine Sees.bind hc hentries ?_ fun _ =>
    (enabledEntries_minor _).bind fun _ => (gatherTexts_minor _).bind hminor
  refine Sees.bind hc (sees_enabledEntries hc _) ?_ fun _ => (gatherTexts_minor _).bind hminor
  refine Sees.bind hc (sees_gatherTexts hc _) ?_ hminor
  refine Sees.bind hc (sees_gatherTexts hc _) ?_ fun _ => ⟨trivial, fun _ => trivial⟩
  exact Sees.bind hc hpolicies (Sees.ret rfl) fun _ => trivial

end Compiling

section Accounting

variable {α β : Type} {i : Nat} {c : Ledger}

variable {s : Manager} {Q : α → Ledger → Prop}

lemma noteDebt_other (hj : j ≠ i) : noteDebt ⟨i, access, result, s, t⟩ debts j = debts j :=
  if_neg hj

lemma noteDebt_self :
    noteDebt ⟨i, ⟨β, op⟩, b, s, t⟩ debts i ↔
      op.publishes = false ∧ (debts i ∨ ¬ SameInputs s t) := by
  rw [noteDebt, if_pos rfl]

lemma noteDebt_same (hop : op.publishes = false) (h : SameInputs s t) : noteDebt ⟨i, ⟨β, op⟩, b, s, t⟩ debts i ↔ debts i := by
  rw [noteDebt_eq_self hop h]

lemma guar_of_step (hop : op.publishes = false)
    (hmatcher : t.matcher = c.1.matcher) (hentries : t.entries ⊆ c.1.entries)
    (hlock : ∀ j, j ≠ i → (c.1.compileLock = some j ↔ t.compileLock = some j))
    (hlocked : c.1.compileLock ≠ some i →
      c.1.entries = t.entries ∧ c.1.pending = t.pending ∧ c.1.raw = t.raw) :
    Guar i c (t, noteDebt ⟨i, ⟨β, op⟩, b, c.1, t⟩ c.2) where
  debts j hj := by simp only [noteDebt_other hj]
  change hne := noteDebt_self.mpr ⟨hop, .inr hne⟩
  publish := .inl ⟨hmatcher.symm, fun hi => noteDebt_self.mpr ⟨hop, .inl hi⟩⟩
  locked := hlocked
  lock := hlock
  entries := hentries

lemma Pays.lock (h : ∀ d, Held i d → (d.2 i ↔ c.2 i) → Pays i Q (next ()) d) :
    Pays i Q (.act .lockCompile next) c := by
  apply Pays.act
  intro d hd _ x b t hrun
  obtain ⟨holder, hfree, heq⟩ := Option.map_eq_some_iff.mp hrun
  cases heq
  rw [acquire] at hfree
  split at hfree
  · next hnone =>
    cases hfree
    refine ⟨guar_of_step rfl rfl (List.Subset.refl _) ?_ fun _ => ⟨rfl, rfl, rfl⟩, h _ rfl ?_⟩
    · intro j hj
      simp only [hnone, reduceCtorEq, Option.some.injEq, false_iff]
      exact hj.symm
    · refine Iff.trans (noteDebt_same (by rfl) ?_) hd.debt.symm
      exact ⟨rfl, rfl, fun _ _ => rfl, rfl⟩
  · cases hfree

lemma Pays.unlock (hc : Held i c)
    (h : ∀ d, (d.2 i ↔ c.2 i) → Pays i Q (next ()) d) : Pays i Q (.act .unlockCompile next) c := by
  apply Pays.act
  intro d hd _ x b t hrun
  cases hrun
  have hheld : d.1.compileLock = some i := hd.keeps_held hc
  refine ⟨guar_of_step rfl rfl (List.Subset.refl _) ?_ fun _ => ⟨rfl, rfl, rfl⟩, h _ ?_⟩
  · intro j hj
    simp only [hheld, Option.some.injEq, reduceCtorEq, iff_false]
    exact hj.symm
  · refine Iff.trans (noteDebt_same (by rfl) ?_) hd.debt.symm
    exact ⟨rfl, rfl, fun _ _ => rfl, rfl⟩

lemma Pays.write (hop : op.publishes = false) (hmatcher : ¬ op.touches .matcher)
    (hlock : ¬ op.touches .compileLock) (hc : Held i c)
    (h : ∀ d, Rely i c d → Sound d → ∀ x b t, Access.run op i x d.1 = some (b, t) →
      t.entries ⊆ d.1.entries ∧ ∀ debts : Debts, Held i (t, debts) →
        (SameInputs d.1 t → debts = d.2) → Pays i Q (next b) (t, debts)) :
    Pays i Q (.act op next) c := by
  apply Pays.act
  intro d hd hsound x b t hrun
  have hframe := Access.frame hrun
  have hheld : Held i d := hd.keeps_held hc
  obtain ⟨hentries, hnext⟩ := h d hd hsound x b t hrun
  refine ⟨guar_of_step hop (hframe.matcher hmatcher) hentries ?_ ?_, hnext _ ?_ ?_⟩
  · intro j _
    rw [hframe.compileLock hlock]
  · exact fun hnot => absurd hheld hnot
  · exact (hframe.compileLock hlock).trans hheld
  · exact fun hsame => noteDebt_eq_self hop hsame b d.2

def Access.WritesText {β : Type} : Access β → Prop
  | .insertPending _ _ | .removePending _ | .writeRaw _ _ | .removeRaw _ => True
  | _ => False

lemma Pays.writeText (hop : op.WritesText) (hc : Held i c)
    (h : ∀ d, Rely i c d → ∀ x b t, Access.run op i x d.1 = some (b, t) →
      ∀ debts : Debts, Held i (t, debts) → (SameInputs d.1 t → debts = d.2) →
        Pays i Q (next b) (t, debts)) : Pays i Q (.act op next) c := by
  have htouches : ¬ op.touches .matcher ∧ ¬ op.touches .compileLock ∧ ¬ op.touches .entries ∧
      op.publishes = false := by
    cases op <;> first | exact hop.elim | exact ⟨nofun, nofun, nofun, rfl⟩
  obtain ⟨hmatcher, hlock, hentries, hpub⟩ := htouches
  apply Pays.write hpub hmatcher hlock hc
  intro d hd _ x b t hrun
  refine ⟨?_, h d hd x b t hrun⟩
  rw [(Access.frame hrun).entries hentries]
  exact List.Subset.refl _

lemma Pays.publish (hc : Held i c) (h : ∀ d, Rely i c d →
      OthersOwe i d ∨ buildMatcher d.1.currentTexts d.1.policies = some matcher)
    (hnext : ∀ d, Held i d → ¬ d.2 i → Pays i Q (next ()) d) :
    Pays i Q (.act (.storeMatcher matcher) next) c := by
  apply Pays.act
  intro d hd _ x b t hrun
  cases hrun
  have hheld : Held i d := hd.keeps_held hc
  have hsame : SameInputs d.1 { d.1 with matcher := matcher } := ⟨rfl, rfl, fun _ _ => rfl, rfl⟩
  refine ⟨⟨?_, ?_, ?_, ?_, ?_, ?_⟩, hnext _ hheld ?_⟩
  · intro j hj
    simp only [noteDebt_other hj]
  · exact fun hne => absurd hsame hne
  · refine .inr ⟨hheld, ?_⟩
    rcases h d hd with ⟨j, hj, howe⟩ | hbuild
    · exact .inr ⟨j, hj, by simpa only [noteDebt_other hj] using howe⟩
    · exact .inl hbuild
  · exact fun _ => ⟨rfl, rfl, rfl⟩
  · exact fun j _ => Iff.rfl
  · exact List.Subset.refl _
  · exact fun hdebt => Bool.noConfusion (noteDebt_self.mp hdebt).1

/-- **A compile pays.** -/
theorem compileAndSwap_pays (hc : Held i c) :
    Pays i (fun r d => Held i d ∧ (r.isSome → ¬ d.2 i)) compileAndSwap c := by
  apply Pays.bind
  apply (sees_compile hc).mono
  rintro r d ⟨hd, hr⟩
  have hheld : Held i d := hd.keeps_held hc
  match r with
  | none => exact Pays.ret fun e he => ⟨he.keeps_held hheld, by simp⟩
  | some (matcher, stats) =>
    apply Pays.publish hheld
    · intro e he
      rcases hr with howe | hbuild
      · exact .inl (he.others hheld howe)
      · -- nobody changed the inputs since the compile began, or somebody is in debt
        rcases (hd.trans he).inputs hc with hsame | howe
        · refine .inr ?_
          obtain ⟨m, hm, heq⟩ := Option.map_eq_some_iff.mp hbuild.symm
          cases heq
          rw [← hsame.currentTexts_eq, ← hsame.policies]
          exact hm
        · exact .inl howe
    · intro e he hpaid
      refine Pays.quiet (by trivial) ?_
      intro e' he' _ x b t _
      apply Pays.ret
      intro e'' he''
      exact ⟨he''.keeps_held (he'.keeps_held he),
        fun _ howe => hpaid (he'.debt.mpr (he''.debt.mpr howe))⟩

lemma recompile_pays : Pays i (fun r d => r.isSome → ¬ d.2 i) recompile c := by
  simp only [recompile, Prog.lift_bind]
  apply Pays.lock
  intro d hd _
  apply Pays.bind
  apply (compileAndSwap_pays hd).mono
  rintro r e ⟨hheld, hpaid⟩
  apply Pays.unlock hheld
  intro e' hsame
  apply Pays.ret
  intro e'' he'' hr howe
  exact hpaid hr (hsame.mp (he''.debt.mpr howe))

end Accounting

end FastAdHunter.Rules.Lifecycle
