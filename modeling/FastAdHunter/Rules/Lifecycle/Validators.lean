import FastAdHunter.Lib.Alone
import FastAdHunter.Rules.Lifecycle.Operations

/-!
# Validators and the text they describe

A refresh sends the validators on file, and a source that answers "not modified"
speaks of the body it once sent them with. The copy and the validators are two
files: a copy that could not be written is kept in memory and lost by a restart
while its validators stay on file, and a copy can be deleted by hand.
-/

namespace FastAdHunter.Rules.Lifecycle

open Lib
open List hiding after next

/-- What is remembered of the past: the body fetched last, and for each list the
body that came with the validators on file. -/
structure Origins where
  fetched : Option Bytes
  origin : Bytes → Option Bytes

def noteOrigin (l : Label Access Manager) (g : Origins) : Origins :=
  match l with
  | ⟨_, ⟨_, .fetch _ _⟩, .ok (.body text _), _, _⟩ => { g with fetched := some text }
  | ⟨_, ⟨_, .writeValidators id _⟩, _, _, _⟩ =>
    { g with origin := Function.update g.origin id g.fetched }
  | _ => g

abbrev Traced := Manager × Origins

/-- The manager with its past recorded. -/
abbrev tracing : Machine Access Traced Choice :=
  machine.ghost noteOrigin

/-- A new process on the same files and the same configuration. -/
def Manager.restarted (s : Manager) : Manager :=
  { s with
    refreshLock := fun _ => none
    compileLock := none
    lastAttempted := fun _ => none
    status := fun id => if s.entries.any (·.id == id) then some .default else none
    pending := fun _ => none
    matcher := emptyRuleset }

/-- The copy of a list is deleted by hand. -/
def Manager.withoutCopy (s : Manager) (id : Bytes) : Manager :=
  { s with raw := Function.update s.raw id none }

/-- What happens in a life: a step, a stop after some steps of an operation, a
deletion. -/
inductive Incident where
  | step (l : Label Access Traced)
  | stopped (labels : List (Label Access Traced))
  | deleted (id : Bytes)

def Operation.Recurs : Operation → Prop
  | .refreshList _ | .refreshAll | .refreshDueLists | .boot => True
  | _ => False

/-- Refreshes and boots one after another, with stops at any point, each followed
by a restart, and with deletions. -/
inductive Life : Traced → List Incident → Traced → Prop
  | nil (s : Traced) : Life s [] s
  | ended {s t : Traced} {op : Operation} {labels : List (Label Access Traced)}
      {c : Pool Access Traced Reply} {reply : Reply} {incidents : List Incident} :
      op.Recurs → Pool.Run tracing ⟨s, [op.program]⟩ labels c → c.threads = [.ret reply] →
        Life c.state incidents t → Life s (labels.map .step ++ incidents) t
  | stopped {s t : Traced} {op : Operation} {labels : List (Label Access Traced)}
      {c : Pool Access Traced Reply} {incidents : List Incident} :
      op.Recurs → Pool.Run tracing ⟨s, [op.program]⟩ labels c →
        Life (c.state.1.restarted, c.state.2) incidents t →
        Life s (labels.map .step ++ .stopped labels :: incidents) t
  | deleted {s t : Traced} (id : Bytes) {incidents : List Incident} :
      Life (s.1.withoutCopy id, s.2) incidents t → Life s (.deleted id :: incidents) t

/-- The writes of a step succeed. -/
def Succeeds (l : Label Access Traced) : Prop :=
  match l with
  | ⟨_, ⟨_, .writeRaw _ _⟩, written, _, _⟩ => written = true
  | ⟨_, ⟨_, .writeValidators id validators⟩, _, _, after⟩ =>
    after.1.validators id = some validators.text
  | ⟨_, ⟨_, .removeValidators id⟩, _, _, after⟩ => after.1.validators id = none
  | _ => True

/-- A step between the write of a copy and that of its validators. -/
def Midway (l : Label Access Traced) : Prop :=
  match l.access with
  | ⟨_, .writeRaw _ _⟩ => True
  | ⟨_, .removePending _⟩ => True
  | _ => False

/-- Nothing goes wrong: writes succeed, no stop comes between a copy and its
validators, and no copy is deleted. -/
def Incident.Smooth : Incident → Prop
  | step l => Succeeds l
  | stopped labels => ∀ l ∈ labels.getLast?, ¬ Midway l
  | deleted _ => False

/-- Validators that a step sends came with the text of the list. -/
def Describes (l : Label Access Traced) : Prop :=
  ∀ entry validators, l.access = ⟨Except LifecycleError FetchOutcome, .fetch entry validators⟩ →
    validators.isEmpty = false →
      ∃ body, l.before.1.text entry.id = some body ∧ l.before.2.origin entry.id = some body

section Fitting

/-- The validators of every registered list came with its copy, and nothing is
pending. -/
structure Fit (s : Traced) : Prop where
  pending : ∀ id, s.1.pending id = none
  described : ∀ entry ∈ s.1.entries, (s.1.storedValidators entry.id).isEmpty = false →
    ∃ body, s.1.raw entry.id = some body ∧ s.2.origin entry.id = some body

/-- A step that sends only validators that fit and leaves a fit, but midway. -/
def Careful (l : Label Access Traced) : Prop :=
  Describes l ∧ (Midway l ∨ Fit l.after)

/-- The program by itself, when its writes succeed. -/
def Tends {α : Type} (Q : α → Traced → Prop) (p : Prog Access α) (s : Traced) : Prop :=
  Alone tracing 0 Succeeds Careful Q p s

/-- Accesses that touch neither the lists, nor the copies, nor the validators, and
send nothing. -/
def Access.Idle {β : Type} : Access β → Prop
  | .addEntry _ | .removeEntries _ | .insertPending _ _ | .removePending _ | .writeRaw _ _
  | .removeRaw _ | .writeValidators _ _ | .removeValidators _ | .fetch _ _ => False
  | _ => True

variable {α β : Type} {s t : Traced}

/-- Two states with the same lists, copies and validators, and one past. -/
structure SameFiles (s t : Traced) : Prop where
  entries : t.1.entries = s.1.entries
  pending : t.1.pending = s.1.pending
  raw : t.1.raw = s.1.raw
  validators : t.1.validators = s.1.validators
  past : t.2 = s.2

lemma SameFiles.refl (s : Traced) : SameFiles s s :=
  ⟨rfl, rfl, rfl, rfl, rfl⟩

lemma SameFiles.trans (hst : SameFiles s t) (htu : SameFiles t u) : SameFiles s u :=
  ⟨htu.entries.trans hst.entries, htu.pending.trans hst.pending, htu.raw.trans hst.raw,
    htu.validators.trans hst.validators, htu.past.trans hst.past⟩

lemma SameFiles.fit (h : SameFiles s t) (hs : Fit s) : Fit t := by
  constructor
  · rw [h.pending]
    exact hs.pending
  · rw [h.entries, h.raw, h.past]
    intro entry hentry hsent
    rw [Manager.storedValidators, h.validators] at hsent
    exact hs.described entry hentry hsent

lemma Access.Idle.sameFiles (h : op.Idle)
    (hrun : tracing.run op 0 x s = some (b, t)) : SameFiles s t := by
  obtain ⟨hop, hnote⟩ := Machine.ghost_run hrun
  have hframe : Frame op.touches s.1 t.1 := frame_of_run hop
  have huntouched : ¬ op.touches .entries ∧ (∀ id, ¬ op.touches (.pending id)) ∧
      (∀ id, ¬ op.touches (.raw id)) ∧ ∀ id, ¬ op.touches (.validators id) := by
    cases op <;> first | exact h.elim | exact ⟨nofun, nofun, nofun, nofun⟩
  obtain ⟨hentries, hpending, hraw, hvalidators⟩ := huntouched
  refine ⟨hframe.entries hentries, funext fun id => hframe.pending id (hpending id),
    funext fun id => hframe.raw id (hraw id),
    funext fun id => hframe.validators id (hvalidators id), ?_⟩
  rw [hnote]
  cases op <;> first | exact h.elim | rfl

/-- Accesses that send nothing. -/
def Access.Silent {β : Type} : Access β → Prop
  | .fetch _ _ => False
  | _ => True

lemma Access.Silent.describes (h : op.Silent) (b : β) (s t : Traced) :
    Describes ⟨0, ⟨β, op⟩, b, s, t⟩ := by
  intro entry validators heq
  cases heq
  exact h.elim

lemma Access.Idle.describes (h : op.Idle) (b : β) (s t : Traced) :
    Describes ⟨0, ⟨β, op⟩, b, s, t⟩ := by
  refine Access.Silent.describes ?_ b s t
  cases op <;> trivial

lemma Access.Minor.idle {op : Access β} (h : op.Minor) : op.Idle := by
  cases op <;> trivial

variable {p : Prog Access α}

lemma Tends.bind (h : Tends (fun a t => Tends Q (k a) t) p s) : Tends Q (p >>= k) s :=
  Alone.bind h

lemma Tends.mono (h : Tends Q p s) (hQ : ∀ a t, Q a t → Q' a t) : Tends Q' p s :=
  Alone.mono h hQ

lemma Tends.idle (hop : op.Idle) (hs : Fit s)
    (h : ∀ x b t, tracing.run op 0 x s = some (b, t) → SameFiles s t → Tends Q (next b) t) :
    Tends Q (.act op next) s := by
  intro x b t hrun _
  have hfiles := hop.sameFiles hrun
  exact ⟨⟨hop.describes b s t, .inr (hfiles.fit hs)⟩, h x b t hrun hfiles⟩

lemma Tends.read (hop : op.Idle) (hread : ∀ x, machine.run op 0 x s.1 = some (v, s.1)) (hs : Fit s)
    (h : Tends Q (next v) s) : Tends Q (.act op next) s := by
  refine Tends.idle hop hs fun x b t hrun hfiles => ?_
  obtain ⟨hop, -⟩ := Machine.ghost_run hrun
  rw [hread x] at hop
  obtain ⟨rfl, hstate⟩ := Prod.mk.inj (Option.some.inj hop)
  rw [show t = s from Prod.ext hstate.symm hfiles.past]
  exact h

lemma Tends.of_all (hp : p.All Access.Idle) (hs : Fit s) :
    Tends (fun _ t => SameFiles s t) p s := by
  refine Alone.of_all (A := fun t => SameFiles s t) ?_ hp (.refl s)
  intro δ op hop t x b u ht hrun _
  have hfiles := ht.trans (hop.sameFiles hrun)
  exact ⟨⟨hop.describes b t u, .inr (hfiles.fit hs)⟩, hfiles⟩

lemma Tends.of_minor (hp : p.All Access.Minor) (hs : Fit s) :
    Tends (fun _ t => SameFiles s t) p s :=
  Tends.of_all (hp.mono fun _ hop => hop.idle) hs

end Fitting

section Committing

variable {s t : Traced} {id text : Bytes}

/-- A copy is on disk, the body fetched last, and its validators are to follow. -/
structure Ready (id text : Bytes) (s : Traced) : Prop where
  pending : ∀ id, s.1.pending id = none
  raw : s.1.raw id = some text
  fetched : s.2.fetched = some text
  others : ∀ entry ∈ s.1.entries, entry.id ≠ id →
    (s.1.storedValidators entry.id).isEmpty = false →
      ∃ body, s.1.raw entry.id = some body ∧ s.2.origin entry.id = some body

lemma Fit.ready (hs : Fit s) (hraw : s.1.raw id = some text)
    (hfetched : s.2.fetched = some text) : Ready id text s :=
  ⟨hs.pending, hraw, hfetched, fun entry hentry _ => hs.described entry hentry⟩

lemma cacheValidators_tends (hs : Ready id text s) (validators : Validators) :
    Tends (fun _ t => Fit t ∧ t.1.entries = s.1.entries) (cacheValidators id validators) s := by
  rw [cacheValidators]
  split
  · intro x _ t hrun hgone
    obtain ⟨hop, hnote⟩ := Machine.ghost_run hrun
    have hframe : Frame (Access.removeValidators id).touches s.1 t.1 := frame_of_run hop
    have hentries := hframe.entries (by rintro ⟨⟩)
    have hfit : Fit t := by
      refine ⟨fun other => (hframe.pending other (by rintro ⟨⟩)).trans (hs.pending other), ?_⟩
      intro entry hentry hsent
      rw [Manager.storedValidators] at hsent
      by_cases hid : entry.id = id
      · rw [hid, show t.1.validators id = none from hgone] at hsent
        cases hsent
      · rw [hframe.validators entry.id fun h => hid (Cell.validators.inj h)] at hsent
        rw [hframe.raw entry.id (by rintro ⟨⟩), hnote]
        exact hs.others entry (hentries ▸ hentry) hid hsent
    exact ⟨⟨Access.Silent.describes (by trivial) _ _ _, .inr hfit⟩, hfit, hentries⟩
  · intro x _ t hrun hwritten
    obtain ⟨hop, hnote⟩ := Machine.ghost_run hrun
    have hframe : Frame (Access.writeValidators id validators).touches s.1 t.1 :=
      frame_of_run hop
    have hentries := hframe.entries (by rintro ⟨⟩)
    have horigin : t.2.origin = Function.update s.2.origin id s.2.fetched := by
      rw [hnote]
      rfl
    have hfit : Fit t := by
      refine ⟨fun other => (hframe.pending other (by rintro ⟨⟩)).trans (hs.pending other), ?_⟩
      intro entry hentry hsent
      rw [hframe.raw entry.id (by rintro ⟨⟩), horigin]
      by_cases hid : entry.id = id
      · rw [hid, Function.update_self]
        exact ⟨text, hs.raw, hs.fetched⟩
      · rw [Manager.storedValidators,
          hframe.validators entry.id fun h => hid (Cell.validators.inj h)] at hsent
        rw [Function.update_of_ne hid]
        exact hs.others entry (hentries ▸ hentry) hid hsent
    exact ⟨⟨Access.Silent.describes (by trivial) _ _ _, .inr hfit⟩, hfit, hentries⟩

lemma commitRaw_tends (hs : Fit s) (hfetched : s.2.fetched = some text) (id : Bytes) :
    Tends (fun _ t => Ready id text t ∧ t.1.entries = s.1.entries) (commitRaw id text) s := by
  simp only [commitRaw, Prog.lift_bind]
  intro x written t hrun hwritten
  refine ⟨⟨Access.Silent.describes (by trivial) _ _ _, .inl trivial⟩, ?_⟩
  obtain ⟨hop, hnote⟩ := Machine.ghost_run hrun
  subst hwritten
  have hframe : Frame (Access.writeRaw id text).touches s.1 t.1 := frame_of_run hop
  have hraw : t.1.raw id = some text := by
    simp only [machine, Access.run] at hop
    split at hop
    · cases hop
    · rw [← (Prod.mk.inj (Option.some.inj hop)).2]
      exact Function.update_self ..
  intro x' _ u hrun' _
  obtain ⟨hop', hnote'⟩ := Machine.ghost_run hrun'
  have hframe' : Frame (Access.removePending id).touches t.1 u.1 := frame_of_run hop'
  have hentries : u.1.entries = s.1.entries := (hframe'.entries (by rintro ⟨⟩)).trans (hframe.entries (by rintro ⟨⟩))
  have hpending : ∀ other, u.1.pending other = none := by
    intro other
    by_cases hid : other = id
    · rw [← (Prod.mk.inj (Option.some.inj hop')).2, hid]
      exact Function.update_self ..
    · rw [hframe'.pending other fun h => hid (Cell.pending.inj h), hframe.pending other (by rintro ⟨⟩)]
      exact hs.pending other
  refine ⟨⟨Access.Silent.describes (by trivial) _ _ _, .inl trivial⟩, ⟨hpending, ?_, ?_, ?_⟩,
    hentries⟩
  · rw [hframe'.raw id (by rintro ⟨⟩), hraw]
  · rw [hnote', hnote]
    exact hfetched
  · intro entry hentry hid hsent
    rw [hentries] at hentry
    rw [Manager.storedValidators, hframe'.validators entry.id (by rintro ⟨⟩),
      hframe.validators entry.id (by rintro ⟨⟩)] at hsent
    rw [hframe'.raw entry.id (by rintro ⟨⟩), hframe.raw entry.id fun h => hid (Cell.raw.inj h), hnote', hnote]
    exact hs.described entry hentry hsent

end Committing

section Refreshing

variable {α : Type} {s t : Traced}

/-- The files fit and the lists are those of before. -/
def Steady (s t : Traced) : Prop :=
  Fit t ∧ t.1.entries = s.1.entries

lemma SameFiles.steady (h : SameFiles s t) (hs : Fit s) : Steady s t :=
  ⟨h.fit hs, h.entries⟩

lemma Steady.trans (hst : Steady s t) (htu : Steady t u) : Steady s u :=
  ⟨htu.1, htu.2.trans hst.2⟩

lemma Tends.fetch (hs : Fit s) (hentry : entry ∈ s.1.entries) (h : ∀ outcome t, t.1 = s.1 → Fit t →
      (∀ text validators, outcome = .ok (.body text validators) → t.2.fetched = some text) →
        Tends Q (next outcome) t) :
    Tends Q (.act (.fetch entry (s.1.storedValidators entry.id)) next) s := by
  intro x outcome t hrun _
  obtain ⟨hop, hnote⟩ := Machine.ghost_run hrun
  have hstate : t.1 = s.1 := by
    simp only [machine, Access.run] at hop
    split at hop
    · split at hop
      · exact (Prod.mk.inj (Option.some.inj hop)).2.symm
      · cases hop
    · cases hop
  have horigin : t.2.origin = s.2.origin := by
    rw [hnote]
    rcases outcome with _ | _ | _ <;> rfl
  have hfit : Fit t := by
    refine ⟨by rw [hstate]; exact hs.pending, ?_⟩
    rw [hstate, horigin]
    exact hs.described
  refine ⟨⟨?_, .inr hfit⟩, h outcome t hstate hfit ?_⟩
  · intro entry' validators heq hsent
    cases heq
    obtain ⟨body, hraw, hbody⟩ := hs.described entry hentry hsent
    refine ⟨body, ?_, hbody⟩
    rw [Manager.text, hs.pending, Option.none_or]
    exact hraw
  · rintro text validators rfl
    rw [hnote]
    rfl

lemma listText_tends (hs : Fit s) (id : Bytes) :
    Tends (fun r t => t = s ∧ r = s.1.raw id) (listText id) s := by
  refine Tends.read (by trivial) (fun _ => rfl) hs ?_
  rw [hs.pending]
  exact Tends.read (by trivial) (fun _ => rfl) hs ⟨rfl, rfl⟩

lemma commitChecked_tends (hs : Fit s) (hfetched : s.2.fetched = some text)
    (entry : Entry) (validators : Validators) (baseline : Option RefreshStats) :
    Tends (fun _ t => Steady s t) (commitChecked entry text validators baseline) s := by
  simp only [commitChecked, Prog.lift_bind]
  refine Tends.read (by trivial) (fun _ => rfl) hs ?_
  split
  · refine Tends.bind ((Tends.of_minor (fallback_minor baseline entry.id) hs).mono fun status t hfiles => ?_)
    have ht := hfiles.steady hs
    split
    · exact ht
    · have hfetched' : t.2.fetched = some text := by rw [hfiles.past, hfetched]
      refine Tends.bind ((commitRaw_tends ht.1 hfetched' entry.id).mono fun _ u hu => ?_)
      refine Tends.bind ((cacheValidators_tends hu.1 validators).mono fun _ v hv => ?_)
      exact ht.trans ⟨hv.1, hv.2.trans hu.2⟩
  · exact ⟨hs, rfl⟩

lemma fetchUnderLock_tends (hs : Fit s) (hentry : entry ∈ s.1.entries) :
    Tends (fun _ t => Steady s t) (fetchUnderLock entry) s := by
  simp only [fetchUnderLock, Prog.lift_bind]
  refine Tends.idle (by trivial) hs fun _ _ s₁ _ h₁ => ?_
  have hs₁ := h₁.steady hs
  refine Tends.read (by trivial) (fun _ => rfl) hs₁.1 ?_
  refine Tends.read (by trivial) (fun _ => rfl) hs₁.1 ?_
  refine Tends.fetch hs₁.1 (hs₁.2 ▸ hentry) fun outcome t hstate hfit hfetched => ?_
  have ht : Steady s t := hs₁.trans ⟨hfit, by rw [hstate]⟩
  match outcome with
  | .error error => exact ht
  | .ok .notModified => exact ht
  | .ok (.body text validators) =>
    have hfetched := hfetched text validators rfl
    refine Tends.bind ((listText_tends hfit entry.id).mono fun cached u hu => ?_)
    obtain ⟨rfl, rfl⟩ := hu
    split
    · next hcached =>
      have hready := hfit.ready hcached hfetched
      refine Tends.bind ((cacheValidators_tends hready validators).mono fun _ v hv => ?_)
      exact ht.trans hv
    · refine Tends.idle (by trivial) hfit fun _ _ v _ hv => ?_
      have hsteady := hv.steady hfit
      have hfetched' : v.2.fetched = some text := by rw [hv.past, hfetched]
      refine Tends.bind ((commitChecked_tends hsteady.1 hfetched' _ _ _).mono fun _ w hw => ?_)
      refine Tends.idle (by trivial) hw.1 fun _ _ w' _ hw' => ?_
      exact (ht.trans hsteady).trans (hw.trans (hw'.steady hw.1))

lemma fetchAndCommit_tends (hs : Fit s) (hentry : entry ∈ s.1.entries) :
    Tends (fun _ t => Steady s t) (fetchAndCommit entry) s := by
  simp only [fetchAndCommit, Prog.lift_bind]
  refine Tends.idle (by trivial) hs fun _ _ t _ hfiles => ?_
  have ht := hfiles.steady hs
  refine Tends.bind ((fetchUnderLock_tends ht.1 (ht.2 ▸ hentry)).mono fun r u hu => ?_)
  refine Tends.idle (by trivial) hu.1 fun _ _ v _ hv => ?_
  exact ht.trans (hu.trans (hv.steady hu.1))

lemma Tends.rest (hp : p.All Access.Idle)
    (hs : Steady s t) (h : ∀ a u, Steady s u → Q a u) : Tends Q p t :=
  (Tends.of_all hp hs.1).mono fun a u hu => h a u (hs.trans (hu.steady hs.1))

lemma compileAndSwap_idle : compileAndSwap.All Access.Idle :=
  compileAndSwap_all (fun _ hop => hop.idle) (fun _ => trivial) fun _ => trivial

/-- The refreshes keep the files fit. -/
def tending : Discipline Traced where
  Judges Q p s := Fit s → Tends Q p s
  Same := SameFiles
  Knows s entry := entry ∈ s.1.entries
  Open := Fit
  Held := Fit
  refl := SameFiles.refl
  trans := SameFiles.trans
  knows h hk := h.entries ▸ hk
  opened h := h.fit
  held h := h.fit
  ret _ h _ := h _ (.refl _)
  minor hop h hs := Tends.idle hop.idle hs fun _ b t hrun ht => h b t ht
    (fun _ hyields => ht.entries ▸ hyields.mem (Machine.ghost_run hrun).1) (ht.fit hs)
  fetches _ hk h hs := Tends.bind ((fetchAndCommit_tends hs hk).mono fun outcome t ht =>
    h outcome t ht.1 (fun _ hother => ht.2 ▸ hother) (fun _ _ => trivial) ht.1)
  locks _ h hs := Tends.idle (by trivial) hs fun _ _ t _ ht => h t (ht.fit hs) (ht.fit hs)
  compiles _ h hs := Tends.bind ((Tends.of_all compileAndSwap_idle hs).mono fun stats t ht =>
    h stats t (ht.fit hs) (fun _ => trivial) (ht.fit hs))
  unlocks _ h hs := Tends.idle (by trivial) hs fun _ _ t _ ht =>
    h t (ht.fit hs) (fun _ => trivial) (ht.fit hs)

end Refreshing

section Booting

variable {s t : Traced}

lemma seedClocks_idle (wallNow now : Nat) (entries : List Entry) :
    (seedClocks wallNow now entries).All Access.Idle :=
  (seedClocks_seeding wallNow now entries).mono fun op h => by cases op <;> trivial

lemma Fit.of_others {id : Bytes} (hs : Fit s) (hid : ∀ entry ∈ s.1.entries, entry.id ≠ id)
    (hentries : t.1.entries = s.1.entries) (hpending : t.1.pending = s.1.pending)
    (hraw : ∀ other, other ≠ id → t.1.raw other = s.1.raw other)
    (hvalidators : ∀ other, other ≠ id → t.1.validators other = s.1.validators other)
    (hpast : t.2 = s.2) : Fit t := by
  refine ⟨by rw [hpending]; exact hs.pending, ?_⟩
  rw [hentries, hpast]
  intro entry hentry hsent
  have hne := hid entry hentry
  rw [Manager.storedValidators, hvalidators entry.id hne] at hsent
  rw [hraw entry.id hne]
  exact hs.described entry hentry hsent

lemma removeOrphans_tends (hs : Fit s) (hkeep : ∀ entry ∈ s.1.entries, entry.id ∈ keep) :
    Tends (fun _ t => Steady s t) (removeOrphans keep files) s := by
  induction files generalizing s with
  | nil => exact ⟨hs, rfl⟩
  | cons file files ih =>
    have hrest : ∀ {t}, Steady s t →
        Tends (fun _ u => Steady s u) (removeOrphans keep files) t := fun ht =>
      (ih ht.1 (ht.2 ▸ hkeep)).mono fun _ _ hu => ht.trans hu
    have hother : ∀ {id}, (!keep.contains id) = true → ∀ entry ∈ s.1.entries, entry.id ≠ id := by
      rintro id hid entry hentry rfl
      simp [hkeep entry hentry] at hid
    cases file with
    | raw id =>
      rw [removeOrphans]
      split
      · next hid =>
        intro x _ t hrun _
        obtain ⟨hop, hnote⟩ := Machine.ghost_run hrun
        have hframe : Frame (Access.removeRaw id).touches s.1 t.1 := frame_of_run hop
        have ht : Steady s t := by
          refine ⟨hs.of_others (hother hid) (hframe.entries (by rintro ⟨⟩))
            (funext fun other => hframe.pending other (by rintro ⟨⟩)) ?_
            (fun other _ => hframe.validators other (by rintro ⟨⟩)) hnote, hframe.entries (by rintro ⟨⟩)⟩
          exact fun other hne => hframe.raw other fun h => hne (Cell.raw.inj h)
        exact ⟨⟨Access.Silent.describes (by trivial) _ _ _, .inr ht.1⟩, hrest ht⟩
      · exact hrest ⟨hs, rfl⟩
    | validators id =>
      rw [removeOrphans]
      split
      · next hid =>
        intro x _ t hrun _
        obtain ⟨hop, hnote⟩ := Machine.ghost_run hrun
        have hframe : Frame (Access.removeValidators id).touches s.1 t.1 := frame_of_run hop
        have ht : Steady s t := by
          refine ⟨hs.of_others (hother hid) (hframe.entries (by rintro ⟨⟩))
            (funext fun other => hframe.pending other (by rintro ⟨⟩))
            (fun other _ => hframe.raw other (by rintro ⟨⟩)) ?_ hnote, hframe.entries (by rintro ⟨⟩)⟩
          exact fun other hne => hframe.validators other fun h => hne (Cell.validators.inj h)
        exact ⟨⟨Access.Silent.describes (by trivial) _ _ _, .inr ht.1⟩, hrest ht⟩
      · exact hrest ⟨hs, rfl⟩

lemma boot_tends (hs : Fit s) : Tends (fun _ t => Steady s t) boot s := by
  simp only [boot, Prog.lift_bind]
  refine Tends.idle (by trivial) hs fun _ _ s₁ _ h₁ => ?_
  have hs₁ := h₁.steady hs
  refine Tends.bind ((Tends.of_all compileAndSwap_idle hs₁.1).mono fun stats s₂ h₂ => ?_)
  have hs₂ := hs₁.trans (h₂.steady hs₁.1)
  cases stats with
  | none => exact Tends.rest ⟨trivial, fun _ => trivial⟩ hs₂ fun _ _ h => h
  | some stats =>
    refine Tends.idle (by trivial) hs₂.1 fun _ wallNow s₃ _ h₃ => ?_
    have hs₃ := hs₂.trans (h₃.steady hs₂.1)
    refine Tends.idle (by trivial) hs₃.1 fun _ now s₄ _ h₄ => ?_
    have hs₄ := hs₃.trans (h₄.steady hs₃.1)
    refine Tends.read (by trivial) (fun _ => rfl) hs₄.1 ?_
    refine Tends.bind ((Tends.of_all (seedClocks_idle wallNow now _) hs₄.1).mono
      fun _ s₅ h₅ => ?_)
    have hs₅ := hs₄.trans (h₅.steady hs₄.1)
    refine Tends.read (by trivial) (fun _ => rfl) hs₅.1 ?_
    refine Tends.idle (by trivial) hs₅.1 fun _ files s₆ _ h₆ => ?_
    have hs₆ := hs₅.trans (h₆.steady hs₅.1)
    have hkeep : ∀ entry ∈ s₆.1.entries, entry.id ∈ userRulesId :: s₅.1.entries.map Entry.id := by
      intro entry hentry
      rw [h₆.entries] at hentry
      exact mem_cons_of_mem _ (mem_map_of_mem hentry)
    refine Tends.bind ((removeOrphans_tends hs₆.1 hkeep).mono fun _ s₇ h₇ => ?_)
    exact Tends.rest ⟨trivial, fun _ => ⟨trivial, fun _ => trivial⟩⟩ (hs₆.trans h₇)
      fun _ _ h => h

/-- **A refresh or a boot by itself keeps copies and validators together.** -/
theorem Operation.fits {op : Operation} (hop : op.Recurs) (hs : Fit s) :
    Tends (fun _ t => Fit t) op.program s := by
  cases op with
  | refreshList id => exact Tends.bind ((tending.refreshList_ends hs trivial id hs).mono fun _ _ ht => ht.1)
  | refreshAll => exact Tends.bind ((tending.refreshAll_ends hs trivial hs).mono fun _ _ ht => ht.1)
  | refreshDueLists => exact Tends.bind ((tending.refreshDueLists_ends hs trivial hs).mono fun _ _ ht => ht.1)
  | boot => exact Tends.bind ((boot_tends hs).mono fun _ _ ht => ht.1)
  | updateList | removeList | setUserRules | setPolicies | addList => exact hop.elim

end Booting

section Describing

variable {s t : Traced}

lemma Fit.restarted (hs : Fit s) : Fit (s.1.restarted, s.2) :=
  ⟨fun _ => rfl, hs.described⟩

lemma fit_of_stopped {op : Operation} (hop : op.Recurs) (hs : Fit s)
    (hrun : Pool.Run tracing ⟨s, [op.program]⟩ labels c) (hok : ∀ l ∈ labels, Succeeds l)
    (hlast : ∀ l ∈ labels.getLast?, ¬ Midway l) : Fit c.state := by
  obtain ⟨hcareful, -⟩ := hrun.alone hok (Operation.fits hop hs)
  rw [hrun.state_eq]
  cases hl : labels.getLast? with
  | none => exact hs
  | some l => exact (hcareful l (mem_of_getLast? hl)).2.resolve_left (hlast l hl)

/-- **Validators describe the text in use**: in a life in which every write of a
copy or of validators succeeds, no stop comes between the two and no copy is
deleted, the validators that a refresh sends came with the text that the list
has then. -/
theorem validators_describe {incidents : List Incident} (hlife : Life s incidents t)
    (hs : Fit s) (hsmooth : ∀ incident ∈ incidents, incident.Smooth) :
    ∀ l, .step l ∈ incidents → Describes l := by
  induction hlife with
  | nil s => simp
  | @ended s t op labels c reply incidents hop hrun hend _ ih =>
    obtain ⟨hsteps, hrest⟩ := forall_mem_append.mp hsmooth
    have hok : ∀ l ∈ labels, Succeeds l := fun l hl => hsteps (.step l) (mem_map_of_mem hl)
    obtain ⟨hcareful, p, hp, hdone⟩ := hrun.alone hok (Operation.fits hop hs)
    rw [hend] at hp
    cases hp
    intro l hl
    rcases mem_append.mp hl with hl | hl
    · obtain ⟨l', hl', heq⟩ := mem_map.mp hl
      cases heq
      exact (hcareful l hl').1
    · exact ih hdone hrest l hl
  | @stopped s t op labels c incidents hop hrun _ ih =>
    obtain ⟨hsteps, hrest⟩ := forall_mem_append.mp hsmooth
    obtain ⟨hlast, hrest⟩ := forall_mem_cons.mp hrest
    have hok : ∀ l ∈ labels, Succeeds l := fun l hl => hsteps (.step l) (mem_map_of_mem hl)
    obtain ⟨hcareful, -⟩ := hrun.alone hok (Operation.fits hop hs)
    intro l hl
    rcases mem_append.mp hl with hl | hl
    · obtain ⟨l', hl', heq⟩ := mem_map.mp hl
      cases heq
      exact (hcareful l hl').1
    · rcases mem_cons.mp hl with heq | hl
      · cases heq
      · exact ih (fit_of_stopped hop hs hrun hok hlast).restarted hrest l hl
  | deleted id _ _ => exact (hsmooth _ mem_cons_self).elim

end Describing

/-- An operation with what the environment does to it, and whether the process is
stopped then. -/
structure Episode where
  op : Operation
  choices : List Choice
  stopped : Bool

def live : Traced → List Episode → Option (List Incident × Traced)
  | s, [] => some ([], s)
  | s, e :: episodes =>
    (Pool.exec tracing ⟨s, [e.op.program]⟩ (e.choices.map fun x => (0, x))).bind fun r =>
      match e.stopped, r.2.threads with
      | true, _ =>
        (live (r.2.state.1.restarted, r.2.state.2) episodes).map fun q =>
          (r.1.map .step ++ .stopped r.1 :: q.1, q.2)
      | false, [.ret _] => (live r.2.state episodes).map fun q => (r.1.map .step ++ q.1, q.2)
      | false, _ => none

lemma life_of_live
    (hops : ∀ e ∈ episodes, e.op.Recurs) (h : live s episodes = some (incidents, t)) :
    Life s incidents t := by
  induction episodes generalizing s incidents with
  | nil =>
    cases h
    exact .nil _
  | cons e episodes ih =>
    obtain ⟨hop, hops⟩ := forall_mem_cons.mp hops
    obtain ⟨⟨labels, c⟩, hexec, h⟩ := Option.bind_eq_some_iff.mp h
    have hrun := Pool.run_of_exec hexec
    split at h
    · obtain ⟨⟨rest, u⟩, hrest, heq⟩ := Option.map_eq_some_iff.mp h
      cases heq
      exact .stopped hop hrun (ih hops hrest)
    · next hthreads =>
      obtain ⟨⟨rest, u⟩, hrest, heq⟩ := Option.map_eq_some_iff.mp h
      cases heq
      exact .ended hop hrun hthreads (ih hops hrest)
    · cases h

instance : DecidablePred Succeeds := fun l => by
  unfold Succeeds
  split <;> infer_instance

instance : DecidablePred Midway := fun l => by
  unfold Midway
  split <;> infer_instance

instance : DecidablePred Incident.Smooth := fun incident => by
  unfold Incident.Smooth
  split <;> infer_instance

/-- The list, registered and never fetched. -/
def newList : Traced :=
  (oneList, ⟨none, fun _ => none⟩)

lemma newList_fit : Fit newList :=
  ⟨fun _ => rfl, fun _ _ => nofun⟩

/-- A refresh that brings a body, up to the write of the copy, and so many steps
more before the process is stopped. -/
def fetching (copy : Choice) (rest : Nat) : Episode where
  op := .refreshList (lit "ads")
  choices := List.replicate 6 (.at 0) ++
    [.fetched (.ok (.body (lit "||ads.example^") ⟨some (lit "v1"), none⟩))] ++
    List.replicate 5 (.at 0) ++ [copy] ++ List.replicate rest (.at 0)
  stopped := true

/-- A boot from what is on disk, with so many steps to set the clocks. -/
def rebooting (seeding : Nat) : Episode where
  op := .boot
  choices := List.replicate 13 (.at 0) ++ [.aged (some 0)] ++ List.replicate (seeding + 1) (.at 0) ++
    [.listed []] ++ List.replicate 2 (.at 0)
  stopped := false

/-- A refresh whose source answers "not modified". -/
def confirming (rest : Nat) : Episode where
  op := .refreshList (lit "ads")
  choices := List.replicate 6 (.at 0) ++ [.fetched (.ok .notModified)] ++
    List.replicate rest (.at 0)
  stopped := false

/-- A step that sends validators, for a list and a state as `p` says. -/
def Incident.sends (p : Entry → Traced → Bool) : Incident → Bool
  | .step ⟨_, ⟨_, .fetch entry validators⟩, _, before, _⟩ => !validators.isEmpty && p entry before
  | _ => false

lemma Incident.of_sends {incident : Incident} (h : incident.sends p = true) :
    ∃ l entry validators, incident = .step l ∧
      l.access = ⟨Except LifecycleError FetchOutcome, .fetch entry validators⟩ ∧
        validators.isEmpty = false ∧ p entry l.before = true := by
  unfold sends at h
  split at h
  · obtain ⟨hsent, hp⟩ := Bool.and_eq_true_iff.mp h
    exact ⟨_, _, _, rfl, rfl, by simpa using hsent, hp⟩
  · cases h

/-- **Validators outlive the copy they came with**: a copy that could not be
written is lost when the process stops, its validators are not, and after "not
modified" the list has no text at all. -/
theorem validators_outlive_copy :
    Fit newList ∧ ∃ incidents t, Life newList incidents t ∧
      (∃ l, .step l ∈ incidents ∧ ¬ Describes l) ∧ t.1.text (lit "ads") = none := by
  refine ⟨newList_fit, ?_⟩
  obtain ⟨⟨incidents, t⟩, hlive, hcheck⟩ := (Option.any_eq_true _ _).mp
    (show (live newList [fetching (.fails [] none) 15, rebooting 0, confirming 14]).any
      (fun r => r.1.any (Incident.sends fun entry s => (s.1.text entry.id).isNone) &&
        (r.2.1.text (lit "ads")).isNone) = true by decide +kernel)
  obtain ⟨hsent, hnone⟩ := Bool.and_eq_true_iff.mp hcheck
  obtain ⟨incident, hmem, hsent⟩ := any_eq_true.mp hsent
  obtain ⟨l, entry, validators, rfl, hl, hvalidators, htext⟩ := Incident.of_sends hsent
  refine ⟨incidents, t, life_of_live ?_ hlive, ⟨l, hmem, fun hdescribes => ?_⟩,
    Option.isNone_iff_eq_none.mp hnone⟩
  · simp [fetching, rebooting, confirming, Operation.Recurs]
  · obtain ⟨body, hbody, -⟩ := hdescribes entry validators hl hvalidators
    rw [hbody] at htext
    cases htext

/-- A life in which validators are written, kept over a stop, and sent. -/
theorem validators_describe_after_restart :
    ∃ incidents t l entry validators, Life newList incidents t ∧ .step l ∈ incidents ∧
      l.access = ⟨Except LifecycleError FetchOutcome, .fetch entry validators⟩ ∧
        validators.isEmpty = false ∧ Describes l := by
  obtain ⟨⟨incidents, t⟩, hlive, hcheck⟩ := (Option.any_eq_true _ _).mp
    (show (live newList [fetching (.at 0) 16, rebooting 4, confirming 3]).any
      (fun r => r.1.any (Incident.sends fun _ _ => true) &&
        r.1.all fun incident => incident.Smooth) = true by decide +kernel)
  obtain ⟨hsent, hsmooth⟩ := Bool.and_eq_true_iff.mp hcheck
  obtain ⟨incident, hmem, hsent⟩ := any_eq_true.mp hsent
  obtain ⟨l, entry, validators, rfl, hl, hvalidators, -⟩ := Incident.of_sends hsent
  have hlife : Life newList incidents t :=
    life_of_live (by simp [fetching, rebooting, confirming, Operation.Recurs]) hlive
  refine ⟨incidents, t, l, entry, validators, hlife, hmem, hl, hvalidators, ?_⟩
  exact validators_describe hlife newList_fit (by simpa using hsmooth) l hmem

end FastAdHunter.Rules.Lifecycle
