import FastAdHunter.Lib.Interference
import FastAdHunter.Rules.Lifecycle.Operations

/-!
# The refresh of a removed list

A refresh works on a handle of the list it started on. The list can be removed and
another registered under its id while the refresh goes on. The body it fetched is
committed only when its own handle is found registered, under the compile lock,
without which no list is removed. The attempt, the outcome, and the validators of
a body that is already stored go by the id alone.
-/

namespace FastAdHunter.Rules.Lifecycle

open Lib
open List hiding next

/-- The outcome that is recorded of a list. -/
def Manager.recorded (s : Manager) (id : Bytes) : RefreshResult × Option Nat :=
  let known := (s.status id).getD .default
  (known.lastResult, known.lastRefreshed)

structure SameTrace (id : Bytes) (s t : Manager) : Prop where
  text : t.text id = s.text id
  validators : t.validators id = s.validators id
  recorded : t.recorded id = s.recorded id
  attempted : t.lastAttempted id = s.lastAttempted id

/-- Accesses that may change what is kept of an id. The counts that a compile
publishes are those of the list that is registered then. -/
def Access.Marks {β : Type} (id : Bytes) : Access β → Prop
  | .publishCounts _ => False
  | op => op.touches (.pending id) ∨ op.touches (.raw id) ∨ op.touches (.validators id) ∨
      op.touches (.status id) ∨ op.touches (.lastAttempted id)

/-- The id that a step goes by without a look at the lists: it notes an attempt or
an outcome, or it caches validators outside the compile lock. -/
def loose (l : Label Access Manager) : Option Bytes :=
  match l.access with
  | ⟨_, .noteAttempt id⟩ => some id
  | ⟨_, .recordStatus id _ _⟩ => some id
  | ⟨_, .writeValidators id _⟩ => if l.before.compileLock = some l.thread then none else some id
  | ⟨_, .removeValidators id⟩ => if l.before.compileLock = some l.thread then none else some id
  | _ => none

/-- The handles that each thread has taken up for a refresh, and whether its last
step was loose. -/
structure Takings where
  taken : Nat → List Entry
  loose : Option Bytes

def noteTaking (l : Label Access Manager) (g : Takings) : Takings where
  taken :=
    match l.access with
    | ⟨_, .lockRefresh entry⟩ => Function.update g.taken l.thread (entry :: g.taken l.thread)
    | _ => g.taken
  loose := Lifecycle.loose l

/-- The handles that a thread has taken up in these steps. -/
def takenBy (i : Nat) (past : List (Label Access Manager)) : List Entry :=
  (recorded noteTaking ⟨fun _ => [], none⟩ past).taken i

/-- A list is registered under the id, and it is none that the thread has taken
up under that id. -/
structure Replaced (taken : List Entry) (s : Manager) (id : Bytes) : Prop where
  started : ∃ entry ∈ taken, entry.id = id
  registered : ∃ entry ∈ s.entries, entry.id = id
  other : ∀ entry ∈ taken, entry.id = id → entry ∉ s.entries

/-- A step that leaves no trace on lists that its thread has not taken up. -/
def LeavesNoTrace (past : List (Label Access Manager)) (l : Label Access Manager) : Prop :=
  ∀ id, Replaced (takenBy l.thread past) l.before id → SameTrace id l.before l.after

/-- A step that goes by an id alone does so before another list has it. -/
def Timely (past : List (Label Access Manager)) (l : Label Access Manager) : Prop :=
  ∀ id, loose l = some id → ¬ Replaced (takenBy l.thread past) l.before id

section Handles

/-- A handle that is not mistaken for another. -/
structure Known (entry : Entry) (s : Manager) : Prop where
  old : entry.ptr < s.nextPtr
  unique : ∀ other ∈ s.entries, other.ptr = entry.ptr → other = entry

/-- The registered handles are told apart. -/
def Distinct (s : Manager) : Prop :=
  ∀ entry ∈ s.entries, Known entry s

variable {β : Type} {op : Access β} {i : Nat} {x : Choice} {s t : Manager} {b : β}

lemma registers_of_run (hrun : machine.run op i x s = some (b, t)) :
    (t.entries = s.entries ∧ t.nextPtr = s.nextPtr) ∨
      (op.compileUse = .guarded ∧ t.entries ⊆ s.entries ∧ t.nextPtr = s.nextPtr) ∨
      ∃ entry : Entry, entry.ptr = s.nextPtr ∧ t.entries = s.entries ++ [entry] ∧
        t.nextPtr = s.nextPtr + 1 := by
  cases op <;> simp only [machine, Access.run, Option.map_eq_some_iff] at hrun
  case lockRefresh | lockCompile =>
    obtain ⟨holder, -, heq⟩ := hrun
    cases heq
    exact .inl ⟨rfl, rfl⟩
  case addEntry config =>
    split at hrun <;> cases hrun
    · exact .inl ⟨rfl, rfl⟩
    · exact .inr (.inr ⟨_, rfl, rfl, rfl⟩)
  case removeEntries =>
    cases hrun
    exact .inr (.inl ⟨rfl, filter_sublist.subset, rfl⟩)
  all_goals
    repeat' split at hrun
    all_goals
      cases hrun <;> exact .inl ⟨rfl, rfl⟩

lemma subset_or_new_of_run (hrun : machine.run op i x s = some (b, t)) :
    (t.entries ⊆ s.entries ∧ t.nextPtr = s.nextPtr) ∨
      ∃ entry : Entry, entry.ptr = s.nextPtr ∧ t.entries = s.entries ++ [entry] ∧
        t.nextPtr = s.nextPtr + 1 := by
  rcases registers_of_run hrun with ⟨hentries, hnext⟩ | ⟨-, hsub, hnext⟩ | hnew
  · exact .inl ⟨hentries ▸ List.Subset.refl _, hnext⟩
  · exact .inl ⟨hsub, hnext⟩
  · exact .inr hnew

lemma Known.of_run (h : Known entry s)
    (hrun : machine.run op i x s = some (b, t)) : Known entry t := by
  rcases subset_or_new_of_run hrun with ⟨hsub, hnext⟩ | ⟨new, hptr, hentries, hnext⟩
  · exact ⟨hnext ▸ h.old, fun other hother => h.unique other (hsub hother)⟩
  · refine ⟨by rw [hnext]; exact Nat.lt_succ_of_lt h.old, fun other hother heq => ?_⟩
    rw [hentries] at hother
    rcases mem_append.mp hother with hother | hother
    · exact h.unique other hother heq
    · cases mem_singleton.mp hother
      exact absurd (heq.symm.trans hptr) (Nat.ne_of_lt h.old)

lemma Distinct.of_run (h : Distinct s) (hrun : machine.run op i x s = some (b, t)) :
    Distinct t := by
  intro entry hentry
  rcases subset_or_new_of_run hrun with ⟨hsub, -⟩ | ⟨new, hptr, hentries, hnext⟩
  · exact (h entry (hsub hentry)).of_run hrun
  · rw [hentries] at hentry
    rcases mem_append.mp hentry with hentry | hentry
    · exact (h entry hentry).of_run hrun
    · cases mem_singleton.mp hentry
      refine ⟨by rw [hnext, hptr]; exact Nat.lt_succ_self _, fun other hother heq => ?_⟩
      rw [hentries] at hother
      rcases mem_append.mp hother with hother | hother
      · exact absurd (heq.trans hptr) (Nat.ne_of_lt (h other hother).old)
      · exact mem_singleton.mp hother

lemma entries_subset_of_run (hop : op.compileUse ≠ .guarded)
    (hrun : machine.run op i x s = some (b, t)) : s.entries ⊆ t.entries := by
  rcases registers_of_run hrun with ⟨hentries, -⟩ | ⟨hguarded, -⟩ | ⟨new, -, hentries, -⟩
  · exact hentries ▸ List.Subset.refl _
  · exact absurd hguarded hop
  · rw [hentries]
    exact subset_append_left _ _

lemma recorded_publish (s : Manager) (stats : Stats) (id : Bytes) :
    ({ s with status := s.publish stats } : Manager).recorded id = s.recorded id := by
  simp only [Manager.recorded, Manager.publish]
  cases s.status id <;> cases stats id <;> rfl

lemma sameTrace_of_run {id : Bytes} (hop : ¬ op.Marks id)
    (hrun : machine.run op i x s = some (b, t)) : SameTrace id s t := by
  have hframe : Frame op.touches s t := frame_of_run hrun
  have hsame : ¬ (op.touches (.pending id) ∨ op.touches (.raw id) ∨ op.touches (.validators id) ∨
      op.touches (.status id) ∨ op.touches (.lastAttempted id)) → SameTrace id s t := by
    simp only [not_or]
    rintro ⟨hpending, hraw, hvalidators, hstatus, hattempted⟩
    refine ⟨?_, hframe.validators id hvalidators, ?_, hframe.lastAttempted id hattempted⟩
    · rw [Manager.text, Manager.text, hframe.pending id hpending, hframe.raw id hraw]
    · rw [Manager.recorded, Manager.recorded, hframe.status id hstatus]
  cases op
  case publishCounts stats =>
    cases hrun
    exact ⟨rfl, rfl, recorded_publish s stats id, rfl⟩
  all_goals exact hsame hop

end Handles

section Interference

/-- The manager with what its threads have taken up. -/
abbrev Watched := Manager × Takings

/-- What others may do between the steps of a thread: with the compile lock in its
hands, no list is removed. -/
structure Undisturbed (i : Nat) (c d : Watched) : Prop where
  lock : c.1.compileLock = some i ↔ d.1.compileLock = some i
  held : c.1.compileLock = some i → c.1.entries ⊆ d.1.entries
  known : ∀ entry, Known entry c.1 → Known entry d.1
  taken : d.2.taken i = c.2.taken i

lemma stable_undisturbed : Stable Undisturbed where
  refl i c := ⟨Iff.rfl, fun _ => List.Subset.refl _, fun _ h => h, rfl⟩
  trans i c d e hcd hde := by
    refine ⟨hcd.lock.trans hde.lock, fun hc => ?_, fun entry h => hde.known entry (hcd.known entry h),
      hde.taken.trans hcd.taken⟩
    exact List.Subset.trans (hcd.held hc) (hde.held (hcd.lock.mp hc))

lemma Undisturbed.trans (hcd : Undisturbed i c d) (hde : Undisturbed i d e) : Undisturbed i c e :=
  stable_undisturbed.trans i c d e hcd hde

/-- A step on an id whose list is registered and was taken up, or a loose one. -/
def Justified (i : Nat) (c d : Watched) : Prop :=
  ∀ id, Replaced (c.2.taken i) c.1 id → d.2.loose ≠ some id → SameTrace id c.1 d.1

/-- What a thread does to ids that others have been given. -/
def Leaves (i : Nat) {α : Type} (Q : α → Watched → Prop) (p : Prog Access α) (c : Watched) : Prop :=
  Holds (machine.ghost noteTaking) (fun c => Distinct c.1) Undisturbed Justified i Q p c

variable {α β : Type} {i : Nat} {c d : Watched}

variable {p : Prog Access α}

lemma Leaves.bind (h : Leaves i (fun a d => Leaves i Q (k a) d) p c) : Leaves i Q (p >>= k) c :=
  Holds.bind stable_undisturbed h

lemma Leaves.mono (h : Leaves i Q p c) (hQ : ∀ a d, Q a d → Q' a d) : Leaves i Q' p c :=
  Holds.mono h hQ

lemma Leaves.ret (h : ∀ d, Undisturbed i c d → Q a d) :
    Leaves i Q (.ret a) c :=
  h

lemma Leaves.act
    (h : ∀ d, Undisturbed i c d → Distinct d.1 → ∀ x b t, machine.run op i x d.1 = some (b, t) →
      (∀ id, op.Marks id → loose ⟨i, ⟨β, op⟩, b, d.1, t⟩ = some id ∨
        ∃ entry ∈ d.2.taken i, entry.id = id ∧ entry ∈ d.1.entries) ∧
      Leaves i Q (next b) (t, noteTaking ⟨i, ⟨β, op⟩, b, d.1, t⟩ d.2)) :
    Leaves i Q (.act op next) c := by
  intro d hd hdistinct x b e hrun
  obtain ⟨hop, hghost⟩ := Machine.ghost_run hrun
  obtain ⟨t, g⟩ := e
  simp only at hghost
  subst hghost
  obtain ⟨hmarks, hnext⟩ := h d hd hdistinct x b t hop
  refine ⟨fun id hreplaced hloose => ?_, hdistinct.of_run hop, hnext⟩
  by_cases hmark : op.Marks id
  · rcases hmarks id hmark with hl | ⟨entry, hentry, hid, hregistered⟩
    · exact absurd hl hloose
    · exact absurd hregistered (hreplaced.other entry hentry hid)
  · exact sameTrace_of_run hmark hop

/-- Accesses that leave the lists and the compile lock alone and take up nothing. -/
def Access.Still {β : Type} : Access β → Prop
  | .addEntry _ | .removeEntries _ | .lockCompile | .unlockCompile | .lockRefresh _ => False
  | _ => True

lemma Access.Still.undisturbed (h : op.Still) (hrun : machine.run op i x c.1 = some (b, t)) :
    Undisturbed i c (t, noteTaking ⟨i, ⟨β, op⟩, b, c.1, t⟩ c.2) := by
  have hframe : Frame op.touches c.1 t := frame_of_run hrun
  have huntouched : ¬ op.touches .entries ∧ ¬ op.touches .compileLock := by
    cases op <;> first | exact h.elim | exact ⟨nofun, nofun⟩
  refine ⟨by rw [hframe.compileLock huntouched.2], fun _ => ?_, fun _ hknown => hknown.of_run hrun, ?_⟩
  · rw [hframe.entries huntouched.1]
    exact List.Subset.refl _
  · cases op <;> first | exact h.elim | rfl

lemma Leaves.still (hop : op.Still) (hmarks : ∀ d, Undisturbed i c d → ∀ b t id, op.Marks id →
      loose ⟨i, ⟨β, op⟩, b, d.1, t⟩ = some id ∨
        ∃ entry ∈ d.2.taken i, entry.id = id ∧ entry ∈ d.1.entries)
    (h : ∀ d, Undisturbed i c d → Distinct d.1 → ∀ x b t, machine.run op i x d.1 = some (b, t) →
      Leaves i Q (next b) d) : Leaves i Q (.act op next) c := by
  refine Leaves.act fun d hd hdistinct x b t hrun => ⟨hmarks d hd b t, ?_⟩
  exact Holds.of_rely stable_undisturbed (h d hd hdistinct x b t hrun) (hop.undisturbed hrun)

/-- Accesses that read, or that record by the id alone. -/
def Access.Passing {β : Type} : Access β → Prop
  | .noteAttempt _ | .publishCounts _ | .storeMatcher _ | .unlockRefresh _ | .fetch _ _ => True
  | op => op.Minor

lemma Access.Minor.passing {op : Access β} (h : op.Minor) : op.Passing := by
  cases op <;> trivial

lemma Access.Passing.still {op : Access β} (h : op.Passing) : op.Still := by
  cases op <;> trivial

lemma Access.Passing.loose (h : op.Passing) {id : Bytes} (hmark : op.Marks id)
    (b : β) (s t : Manager) : Lifecycle.loose ⟨i, ⟨β, op⟩, b, s, t⟩ = some id := by
  cases op
  case noteAttempt | recordStatus =>
    simpa [Access.Marks, Access.touches, Lifecycle.loose, eq_comm] using hmark
  all_goals first
    | exact h.elim
    | simp [Access.Marks, Access.touches] at hmark

lemma Leaves.passing (hop : op.Passing)
    (h : ∀ d, Undisturbed i c d → Distinct d.1 → ∀ x b t, machine.run op i x d.1 = some (b, t) →
      Leaves i Q (next b) d) : Leaves i Q (.act op next) c :=
  Leaves.still hop.still (fun d _ b t _ hmark => .inl (hop.loose hmark b d.1 t)) h

lemma Leaves.of_all (hp : p.All Access.Passing) (hc : Undisturbed i d c) :
    Leaves i (fun _ e => Undisturbed i d e) p c := by
  induction p generalizing c with
  | ret a => exact Leaves.ret fun e he => hc.trans he
  | act op next ih =>
    exact Leaves.passing hp.1 fun e he _ x b t _ => ih b (hp.2 b) (hc.trans he)

lemma Leaves.of_minor (hp : p.All Access.Minor) (hc : Undisturbed i d c) :
    Leaves i (fun _ e => Undisturbed i d e) p c :=
  Leaves.of_all (hp.mono fun _ hop => hop.passing) hc

end Interference

section Refreshing

/-- What a thread has taken up, and the handles it knows, from one state to a later
one. -/
structure Later (i : Nat) (c d : Watched) : Prop where
  known : ∀ entry, Known entry c.1 → Known entry d.1
  taken : c.2.taken i ⊆ d.2.taken i

variable {α β : Type} {i : Nat} {c d : Watched}

lemma Later.trans (hcd : Later i c d) (hde : Later i d e) : Later i c e :=
  ⟨fun entry h => hde.known entry (hcd.known entry h), List.Subset.trans hcd.taken hde.taken⟩

lemma Undisturbed.later (h : Undisturbed i c d) : Later i c d :=
  ⟨h.known, h.taken ▸ List.Subset.refl _⟩

/-- The thread is outside the compile lock. -/
def Outside (i : Nat) (c : Watched) : Prop :=
  c.1.compileLock ≠ some i

lemma Undisturbed.outside (h : Undisturbed i c d) (hc : Outside i c) : Outside i d :=
  fun hd => hc (h.lock.mpr hd)

/-- A refresh of a list: its handle is known and taken up. -/
structure Working (i : Nat) (entry : Entry) (c : Watched) : Prop where
  known : Known entry c.1
  taken : entry ∈ c.2.taken i

lemma Later.working (h : Later i c d) (hc : Working i entry c) :
    Working i entry d :=
  ⟨h.known entry hc.known, h.taken hc.taken⟩

variable {Q : α → Watched → Prop}

lemma Leaves.lockCompile
    (h : ∀ d, Later i c d → d.1.compileLock = some i → Leaves i Q (next ()) d) :
    Leaves i Q (.act .lockCompile next) c := by
  refine Leaves.act fun d hd _ x b t hrun => ⟨fun id hmark => ?_, h _ ?_ ?_⟩
  · simp [Access.Marks, Access.touches] at hmark
  · exact hd.later.trans ⟨fun _ hknown => hknown.of_run hrun, List.Subset.refl _⟩
  · exact (compileLock.acquires rfl hrun).2

lemma Leaves.unlockCompile (h : ∀ d, Later i c d → Outside i d → Leaves i Q (next ()) d) :
    Leaves i Q (.act .unlockCompile next) c := by
  refine Leaves.act fun d hd _ x b t hrun => ⟨fun id hmark => ?_, h _ ?_ ?_⟩
  · simp [Access.Marks, Access.touches] at hmark
  · exact hd.later.trans ⟨fun _ hknown => hknown.of_run hrun, List.Subset.refl _⟩
  · intro hheld
    have hnone : t.compileLock = none := compileLock.releases rfl hrun
    rw [hnone] at hheld
    cases hheld

lemma Leaves.lockRefresh (hknown : Known entry c.1) (hc : Outside i c)
    (h : ∀ d, Later i c d → Working i entry d → Outside i d → Leaves i Q (next ()) d) :
    Leaves i Q (.act (.lockRefresh entry) next) c := by
  refine Leaves.act fun d hd _ x b t hrun => ⟨fun id hmark => ?_, ?_⟩
  · simp [Access.Marks, Access.touches] at hmark
  · have htaken : (noteTaking ⟨i, ⟨Unit, .lockRefresh entry⟩, b, d.1, t⟩ d.2).taken i =
        entry :: d.2.taken i := Function.update_self ..
    have hframe : Frame (Access.lockRefresh entry).touches d.1 t := frame_of_run hrun
    refine h _ ?_ ⟨(hd.known entry hknown).of_run hrun, ?_⟩ ?_
    · refine hd.later.trans ⟨fun _ hknown => hknown.of_run hrun, ?_⟩
      rw [htaken]
      exact subset_cons_self _ _
    · rw [htaken]
      exact mem_cons_self
    · rw [Outside, hframe.compileLock nofun]
      exact hd.outside hc

/-- Accesses that store a text or the validators of a list. -/
def Access.Stores {β : Type} (id : Bytes) : Access β → Prop
  | .writeRaw id' _ | .insertPending id' _ | .removePending id' | .writeValidators id' _
  | .removeValidators id' => id' = id
  | _ => False

lemma Access.Stores.still {id : Bytes} {op : Access β} (h : op.Stores id) : op.Still := by
  cases op <;> trivial

lemma Access.Stores.marks {id id' : Bytes} {op : Access β} (h : op.Stores id)
    (hmark : op.Marks id') : id' = id := by
  cases op <;> first
    | simp_all [Access.Marks, Access.touches, Access.Stores]

/-- A thread with the compile lock, and its list registered. -/
structure Holding (i : Nat) (entry : Entry) (c : Watched) : Prop where
  lock : c.1.compileLock = some i
  taken : entry ∈ c.2.taken i
  registered : entry ∈ c.1.entries

lemma Undisturbed.holding (h : Undisturbed i c d) (hc : Holding i entry c) :
    Holding i entry d :=
  ⟨h.lock.mp hc.lock, h.taken ▸ hc.taken, h.held hc.lock hc.registered⟩

lemma Leaves.store (hop : op.Stores entry.id) (hc : Holding i entry c)
    (h : ∀ d, Undisturbed i c d → ∀ b, Leaves i Q (next b) d) : Leaves i Q (.act op next) c := by
  refine Leaves.still hop.still (fun d hd b t id hmark => .inr ?_) fun d hd _ _ b _ _ => h d hd b
  have hd := hd.holding hc
  exact ⟨entry, hd.taken, (hop.marks hmark).symm, hd.registered⟩

lemma commitRaw_leaves (hc : Holding i entry c) (text : Bytes) :
    Leaves i (fun _ d => Undisturbed i c d) (commitRaw entry.id text) c := by
  simp only [commitRaw, Prog.lift_bind]
  refine Leaves.store (by rfl) hc fun d hd written => ?_
  split
  all_goals
    exact Leaves.store (by rfl) (hd.holding hc) fun e he _ => Leaves.ret fun _ hf =>
      (hd.trans he).trans hf

lemma cacheValidators_holding (hc : Holding i entry c) (validators : Validators) :
    Leaves i (fun _ d => Undisturbed i c d) (cacheValidators entry.id validators) c := by
  rw [cacheValidators]
  split
  all_goals exact Leaves.store (by rfl) hc fun d hd _ => Leaves.ret fun _ he => hd.trans he

lemma cacheValidators_outside (hc : Outside i c) (id : Bytes) (validators : Validators) :
    Leaves i (fun _ d => Undisturbed i c d) (cacheValidators id validators) c := by
  have hstep : ∀ {op : Access Unit}, op.Stores id →
      (∀ s t, s.compileLock ≠ some i → loose ⟨i, ⟨Unit, op⟩, (), s, t⟩ = some id) →
      Leaves i (fun _ d => Undisturbed i c d) (.act op .ret) c := by
    intro op hop hloose
    refine Leaves.still hop.still (fun d hd _ t id' hmark => .inl ?_) fun d hd _ _ _ _ _ =>
      Leaves.ret fun _ he => hd.trans he
    rw [hop.marks hmark]
    exact hloose d.1 t (hd.outside hc)
  rw [cacheValidators]
  split
  all_goals exact hstep rfl fun s t hs => by simp [loose, hs]

lemma commitChecked_leaves (hlock : c.1.compileLock = some i)
    (hc : Working i entry c) (text : Bytes) (validators : Validators)
    (baseline : Option RefreshStats) :
    Leaves i (fun _ d => Undisturbed i c d) (commitChecked entry text validators baseline) c := by
  simp only [commitChecked, Prog.lift_bind]
  refine Leaves.passing (by trivial) fun d hd _ x live t hrun => ?_
  split
  · next hlive =>
    -- the handle that is found is the one that was taken up
    have hd' := hd.later.working hc
    obtain ⟨found, hfound, hptr⟩ := (Option.any_eq_true _ _).mp hlive
    cases hrun
    have hregistered := mem_of_find?_eq_some hfound
    have heq := hd'.known.unique found hregistered (by simpa using hptr)
    have hholding : Holding i entry d := ⟨hd.lock.mp hlock, hd'.taken, heq ▸ hregistered⟩
    refine Leaves.bind ((Leaves.of_minor (fallback_minor baseline entry.id) (stable_undisturbed.refl i d)).mono
      fun status e he => ?_)
    split
    · exact Leaves.ret fun _ hf => (hd.trans he).trans hf
    · have hde := he.holding hholding
      refine Leaves.bind ((commitRaw_leaves hde text).mono fun _ f hf => ?_)
      refine Leaves.bind ((cacheValidators_holding (hf.holding hde) validators).mono
        fun _ g hg => ?_)
      exact Leaves.ret fun _ hh => (((hd.trans he).trans hf).trans hg).trans hh
  · exact Leaves.ret fun _ he => hd.trans he

/-- Outside the compile lock again, and nothing forgotten. -/
def Onward (i : Nat) (c d : Watched) : Prop :=
  Later i c d ∧ Outside i d

lemma Undisturbed.onward (h : Undisturbed i c d) (hc : Outside i c) : Onward i c d :=
  ⟨h.later, h.outside hc⟩

lemma fetchUnderLock_leaves (hc : Working i entry c) (hout : Outside i c) :
    Leaves i (fun _ d => Onward i c d) (fetchUnderLock entry) c := by
  simp only [fetchUnderLock, Prog.lift_bind]
  refine Leaves.passing (by trivial) fun d₁ hd₁ _ _ _ _ _ => ?_
  refine Leaves.passing (by trivial) fun d₂ hd₂ _ _ status _ _ => ?_
  refine Leaves.passing (by trivial) fun d₃ hd₃ _ _ stored _ _ => ?_
  refine Leaves.passing (by trivial) fun d₄ hd₄ _ _ outcome _ _ => ?_
  have hd := ((hd₁.trans hd₂).trans hd₃).trans hd₄
  match outcome with
  | .error _ => exact Leaves.ret fun _ he => (hd.trans he).onward hout
  | .ok .notModified => exact Leaves.ret fun _ he => (hd.trans he).onward hout
  | .ok (.body text validators) =>
    refine Leaves.bind ((Leaves.of_minor (listText_minor entry.id) hd).mono fun cached e he => ?_)
    split
    · refine Leaves.bind ((cacheValidators_outside (he.outside hout) entry.id validators).mono
        fun _ f hf => ?_)
      exact Leaves.ret fun _ hg => ((he.trans hf).trans hg).onward hout
    · refine Leaves.lockCompile fun f hf hlock => ?_
      have hworking := (he.later.trans hf).working hc
      refine Leaves.bind ((commitChecked_leaves hlock hworking text validators _).mono
        fun _ g hg => ?_)
      refine Leaves.unlockCompile fun g' hg' hout' => Leaves.ret fun _ hh => ?_
      exact ⟨(((he.later.trans hf).trans hg.later).trans hg').trans hh.later, hh.outside hout'⟩

lemma fetchAndCommit_leaves (hc : Known entry c.1) (hout : Outside i c) :
    Leaves i (fun _ d => Onward i c d) (fetchAndCommit entry) c := by
  simp only [fetchAndCommit, Prog.lift_bind]
  refine Leaves.lockRefresh hc hout fun d hd hworking hout' => ?_
  refine Leaves.bind ((fetchUnderLock_leaves hworking hout').mono fun outcome e he => ?_)
  refine Leaves.passing (by trivial) fun f hf _ _ _ _ _ => Leaves.ret fun _ hg => ?_
  exact ⟨(hd.trans he.1).trans (hf.trans hg).later, (hf.trans hg).outside he.2⟩

lemma compileAndSwap_passing : compileAndSwap.All Access.Passing :=
  compileAndSwap_all (fun _ hop => hop.passing) (fun _ => trivial) fun _ => trivial

lemma Leaves.compile
    (h : ∀ stats d, Later i c d → Leaves i Q (k stats) d) : Leaves i Q (compileAndSwap >>= k) c :=
  Leaves.bind ((Leaves.of_all compileAndSwap_passing (stable_undisturbed.refl i c)).mono
    fun stats d hd => h stats d hd.later)

/-- The refreshes leave no trace on lists that others were given. -/
def leaving (i : Nat) : Discipline Watched where
  Judges Q p c := Leaves i Q p c
  Same := Undisturbed i
  Knows c entry := Known entry c.1
  Open := Outside i
  refl := stable_undisturbed.refl i
  trans := Undisturbed.trans
  knows h := h.known _
  opened h := h.outside
  ret _ h := Leaves.ret h
  minor hop h := Leaves.passing hop.passing fun d hd hdistinct _ b _ hrun =>
    h b d hd fun entry hyields => hdistinct entry (hyields.mem hrun)
  fetches ho hk h := Leaves.bind ((fetchAndCommit_leaves hk ho).mono fun outcome d hd =>
    h outcome d hd.2 hd.1.known fun _ _ => trivial)
  locks _ h := Leaves.lockCompile fun d _ _ => h d trivial
  compiles _ h := Leaves.compile fun stats d _ => h stats d trivial fun _ => trivial
  unlocks _ h := Leaves.unlockCompile fun d _ hout => h d hout fun _ => trivial

/-- **What a refresh stores, it stores for a list that it took up**, but for what
it records by the id alone. -/
theorem Operation.leaves {op : Operation} (hop : op.Refreshes) (hout : Outside i c) :
    Leaves i (fun _ _ => True) op.program c := by
  have hend : ∀ {γ : Type} {p : Prog Access γ} {k : γ → Reply} {Q : γ → Watched → Prop},
      Leaves i Q p c → Leaves i (fun _ _ => True) (p >>= fun r => pure (k r)) c :=
    fun h => Leaves.bind (h.mono fun _ _ _ => Leaves.ret fun _ _ => trivial)
  match op with
  | .refreshList id => exact hend ((leaving i).refreshList_ends hout trivial id)
  | .refreshAll => exact hend ((leaving i).refreshAll_ends hout trivial)
  | .refreshDueLists => exact hend ((leaving i).refreshDueLists_ends hout trivial)

end Refreshing

section Replacing

variable {s : Manager} {ops : List Operation} {labels : List (Label Access Manager)}
variable {c : Pool Access Manager Reply}

lemma undisturbed_of_follows (hfollows : compileLock.Follows l)
    (hrun : machine.run l.access.2 l.thread x l.before = some (l.result, l.after))
    (hi : l.thread ≠ i) (g : Takings) :
    Undisturbed i (l.before, g) (l.after, noteTaking l g) where
  lock := hfollows.others fun heq => hi heq.symm
  held hheld := by
    refine entries_subset_of_run (fun hguarded => ?_) hrun
    have hholder : l.before.compileLock = some l.thread := hfollows.of_guarded hguarded
    exact hi (Option.some.inj (hholder.symm.trans hheld))
  known _ hknown := hknown.of_run hrun
  taken := by
    rw [noteTaking]
    split
    · exact Function.update_of_ne (fun heq => hi heq.symm) _ _
    · rfl

/-- **A removed list's refresh leaves no trace** on the list that has its id now,
at every step that does not come too late: one that notes an attempt, an outcome
or, outside the compile lock, validators while the list it started on is still
registered or none is registered under the id. -/
theorem refresh_leaves_no_trace (hs : Distinct s) (hfree : s.compileLock = none)
    (hrun : Pool.Run machine (together s ops) labels c) {op : Operation}
    {first rest : List (Label Access Manager)} {l : Label Access Manager}
    (hl : labels = first ++ l :: rest) (hop : ops[l.thread]? = some op) (hrefresh : op.Refreshes)
    (htimely : Timely first l) : LeavesNoTrace first l := by
  have horderly : compileLock.Orderly (together s ops) := by
    refine Lock.orderly_of_free hfree fun p hp => ?_
    obtain ⟨op', -, rfl⟩ := mem_map.mp hp
    exact op'.locks
  have hfollows := (horderly.follows hrun).1
  have hghost : Pool.Run (machine.ghost noteTaking) _ _ _ := hrun.ghost ⟨fun _ => [], none⟩
  obtain ⟨-, hdistinct⟩ := hghost.invariant (I := fun c => Distinct c.1)
    (fun op i x s b t h hrun => h.of_run (Machine.ghost_run hrun).1) hs
  have hp : (together s ops).threads[l.thread]? = some op.program := by
    simp [together, hop]
  have hothers : ∀ m ∈ annotate noteTaking ⟨fun _ => [], none⟩ labels, m.thread ≠ l.thread →
      Undisturbed l.thread m.before m.after := by
    intro m hm hne
    obtain ⟨past, l', later, hsplit, rfl⟩ := mem_annotate.mp hm
    have hl' : l' ∈ labels := hsplit ▸ mem_append_right past mem_cons_self
    obtain ⟨x, hstep⟩ := hrun.performs l' hl'
    exact undisturbed_of_follows (hfollows l' hl') hstep hne _
  have hout : Outside l.thread (s, ⟨fun _ => [], none⟩) := by
    rw [Outside, hfree]
    nofun
  obtain ⟨hlabels, -⟩ := hghost.holds_among stable_undisturbed hdistinct hothers hp
    (Operation.leaves hrefresh hout)
  have hjustified := hlabels _ (mem_annotate.mpr ⟨first, l, rest, hl, rfl⟩) rfl
  exact fun id hreplaced => hjustified id hreplaced fun hloose => htimely id hloose hreplaced

instance (taken : List Entry) (s : Manager) (id : Bytes) : Decidable (Replaced taken s id) :=
  decidable_of_iff ((∃ entry ∈ taken, entry.id = id) ∧ (∃ entry ∈ s.entries, entry.id = id) ∧
      ∀ entry ∈ taken, entry.id = id → entry ∉ s.entries)
    ⟨fun ⟨h₁, h₂, h₃⟩ => ⟨h₁, h₂, h₃⟩, fun h => ⟨h.started, h.registered, h.other⟩⟩

lemma oneList_distinct : Distinct oneList := by
  intro entry hentry
  cases mem_singleton.mp hentry
  exact ⟨Nat.one_pos, fun other hother _ => mem_singleton.mp hother⟩

/-- The list is removed, and another added under its id. -/
def replacing : List Operation :=
  [.refreshList (lit "ads"), .removeList (lit "ads"),
    .addList ⟨lit "ads", lit "https://other.example/ads.txt", true, none⟩]

/-- While a refresh waits for its source, the list is replaced; then the source
answers, and the refresh takes so many steps more. -/
def lateAnswer (answer : Except LifecycleError FetchOutcome) (rest : Nat) : List (Nat × Choice) :=
  turns [(0, 6), (1, 15), (2, 2)] ++ [(0, .fetched answer)] ++ turns [(0, rest)]

/-- The last step of a run of these operations, if it is on a list that was
replaced. -/
def lateStep (schedule : List (Nat × Choice)) (p : Label Access Manager → Bool) : Bool :=
  (Pool.exec machine (together oneList replacing) schedule).any fun r =>
    r.1.getLast?.any fun l => decide (l.thread = 0) &&
      (decide (Replaced (takenBy 0 r.1.dropLast) l.before (lit "ads")) && p l)

lemma run_of_lateStep (schedule : List (Nat × Choice)) (p : Label Access Manager → Bool)
    (h : lateStep schedule p = true) :
    ∃ first l c, Pool.Run machine (together oneList replacing) (first ++ [l]) c ∧
      l.thread = 0 ∧ Replaced (takenBy l.thread first) l.before (lit "ads") ∧ p l = true := by
  obtain ⟨⟨labels, c⟩, hexec, h⟩ := (Option.any_eq_true _ _).mp h
  obtain ⟨l, hl, h⟩ := (Option.any_eq_true _ _).mp h
  obtain ⟨hthread, h⟩ := Bool.and_eq_true_iff.mp h
  obtain ⟨hreplaced, hp⟩ := Bool.and_eq_true_iff.mp h
  have hthread : l.thread = 0 := of_decide_eq_true hthread
  refine ⟨labels.dropLast, l, c, ?_, hthread, ?_, hp⟩
  · rw [dropLast_append_getLast? l hl]
    exact Pool.run_of_exec hexec
  · rw [hthread]
    exact of_decide_eq_true hreplaced

/-- **An outcome on a list that did not earn it**: the source of a removed list
fails, and the list that has its id now is recorded as failed. -/
theorem outcome_on_new_list :
    ∃ first l c, Pool.Run machine (together oneList replacing) (first ++ [l]) c ∧
      l.thread = 0 ∧ ¬ LeavesNoTrace first l := by
  obtain ⟨first, l, c, hrun, hthread, hreplaced, hchanged⟩ := run_of_lateStep
    (lateAnswer (.error (.fetch (lit "https://lists.example/ads.txt") [])) 2)
    (fun l => l.after.recorded (lit "ads") ≠ l.before.recorded (lit "ads")) (by decide +kernel)
  refine ⟨first, l, c, hrun, hthread, fun h => ?_⟩
  exact of_decide_eq_true hchanged (h (lit "ads") hreplaced).recorded

/-- The body of a removed list is looked at and not committed. -/
theorem refresh_leaves_no_trace_removed :
    ∃ first l c, Pool.Run machine (together oneList replacing) (first ++ [l]) c ∧
      Replaced (takenBy l.thread first) l.before (lit "ads") ∧ LeavesNoTrace first l := by
  obtain ⟨first, l, c, hrun, hthread, hreplaced, hloose⟩ := run_of_lateStep
    (lateAnswer (.ok (.body (lit "||ads.example^") .none)) 5)
    (fun l => (loose l).isNone) (by decide +kernel)
  refine ⟨first, l, c, hrun, hreplaced, ?_⟩
  have hop : replacing[l.thread]? = some (.refreshList (lit "ads")) := by
    rw [hthread]
    rfl
  refine refresh_leaves_no_trace oneList_distinct rfl hrun rfl hop trivial fun id hid => ?_
  rw [Option.isNone_iff_eq_none.mp hloose] at hid
  cases hid

end Replacing

end FastAdHunter.Rules.Lifecycle
