import FastAdHunter.Rules.Lifecycle.Operations

/-!
# Failures keep the protection

What a list protects with is its text, on disk or pending, the validators that
decide whether the text is fetched again, the ruleset that serves and the counts
of what it contributes. A refresh writes to these only after the last point where
it can fail, and a batch fails list by list; the statements here are about the
steps of one thread with anything done by the others in between.
-/

namespace FastAdHunter.Rules.Lifecycle

open Lib
open List hiding next

section Sparing

structure Protected (s t : Manager) : Prop where
  raw : t.raw = s.raw
  pending : t.pending = s.pending
  validators : t.validators = s.validators
  matcher : t.matcher = s.matcher
  compiled : ∀ id, t.compiled id = s.compiled id

/-- Accesses that leave it alone. -/
def Access.Harmless {β : Type} : Access β → Prop
  | .resetStatus _ | .removeStatus _ | .publishCounts _ | .insertPending _ _ | .removePending _
  | .writeRaw _ _ | .removeRaw _ | .writeValidators _ _ | .removeValidators _
  | .storeMatcher _ => False
  | _ => True

lemma compiled_update {s : Manager} {id : Bytes} {status : ListStatus}
    (h : status.compiled = s.compiled id) (other : Bytes) :
    { s with status := Function.update s.status id (some status) }.compiled other =
      s.compiled other := by
  by_cases hid : other = id
  · subst hid
    simp [Manager.compiled, h]
  · simp [Manager.compiled, Function.update_of_ne hid]

lemma compiled_getD (s : Manager) (id : Bytes) :
    ((s.status id).getD .default).compiled = s.compiled id := by
  rw [Manager.compiled]
  cases s.status id with
  | none => rfl
  | some status => rfl

variable {α β : Type} {i : Nat}

variable {op : Access β} {x : Choice} {s t : Manager} {p : Prog Access α}

lemma compiled_of_harmless (h : op.Harmless)
    (hrun : op.run i x s = some (b, t)) (id : Bytes) : t.compiled id = s.compiled id := by
  cases op
  case recordStatus id' result refreshedNow =>
    simp only [Access.run] at hrun
    split at hrun <;> cases hrun
    · rfl
    · next known time hknown =>
      exact compiled_update (by simp [Manager.compiled, hknown]) id
  case seedRefreshed id' time =>
    cases hrun
    refine compiled_update ?_ id
    exact compiled_getD s id'
  case fillResults stats =>
    cases hrun
    simp only [Manager.compiled, Manager.fill]
    cases stats id with
    | none => rfl
    | some counts =>
      dsimp only
      split
      · exact compiled_getD s id
      · exact compiled_getD s id
  all_goals first
    | exact h.elim
    | (have hframe := Access.frame (i := i) hrun
       exact congrArg (Option.bind · _) (hframe.status id (by simp [Access.touches])))

lemma Access.Harmless.protected (h : op.Harmless) (hrun : op.run i x s = some (b, t)) : Protected s t := by
  have hframe := Access.frame (i := i) hrun
  have huntouched : (∀ id, ¬ op.touches (.raw id)) ∧ (∀ id, ¬ op.touches (.pending id)) ∧
      (∀ id, ¬ op.touches (.validators id)) ∧ ¬ op.touches .matcher := by
    cases op <;> first
      | exact h.elim
      | exact ⟨nofun, nofun, nofun, nofun⟩
  obtain ⟨hraw, hpending, hvalidators, hmatcher⟩ := huntouched
  exact {
    raw := funext fun id => hframe.raw id (hraw id)
    pending := funext fun id => hframe.pending id (hpending id)
    validators := funext fun id => hframe.validators id (hvalidators id)
    matcher := hframe.matcher hmatcher
    compiled := compiled_of_harmless h hrun }

/-- All these steps leave it alone. -/
def Spared (labels : List (Label Access Manager)) : Prop :=
  ∀ l ∈ labels, Protected l.before l.after

lemma Spared.append (hfirst : Spared first) (hrest : Spared rest) : Spared (first ++ rest) :=
  forall_mem_append.mpr ⟨hfirst, hrest⟩

lemma spared_nil : Spared [] := by
  intro l hl
  exact absurd hl not_mem_nil

lemma Spared.cons (hop : op.Harmless) (hrun : machine.run op i x s = some (b, t))
    (h : Spared labels) : Spared (⟨i, ⟨β, op⟩, b, s, t⟩ :: labels) :=
  forall_mem_cons.mpr ⟨hop.protected hrun, h⟩

lemma does_spare (hp : p.All Access.Harmless) :
    Does machine i (fun labels _ => Spared labels) p :=
  Does.of_all (fun _ hop _ _ _ _ hrun => hop.protected hrun) hp

/-- The program leaves it alone whenever it ends in a failure. -/
def Spares (i : Nat) (Failed : α → Prop) (p : Prog Access α) : Prop :=
  Does machine i (fun labels a => Failed a → Spared labels) p

lemma Spares.ret {Failed : α → Prop} (a : α) : Spares i Failed (.ret a) :=
  Does.ret fun _ => spared_nil

lemma Spares.act {Failed : α → Prop}
    (hop : op.Harmless) (h : ∀ b, Spares i Failed (next b)) : Spares i Failed (.act op next) := by
  refine Does.act fun x s b t hrun => (h b).mono fun labels a hspared hfailed => ?_
  exact Spared.cons hop hrun (hspared hfailed)

lemma Spares.bind {Failed : α → Prop} (hp : Spares i Failed p)
    (hk : ∀ a, Failed a → Spares i Failed' (k a))
    (hdone : ∀ a, ¬ Failed a → Does machine i (fun _ b => ¬ Failed' b) (k a)) :
    Spares i Failed' (p >>= k) := by
  refine Does.bind (hp.mono fun first a hfirst => ?_)
  by_cases hfailed : Failed a
  · exact (hk a hfailed).mono fun rest b hrest hb => (hfirst hfailed).append (hrest hb)
  · exact (hdone a hfailed).mono fun rest b hnot hb => absurd hb hnot

lemma Spares.bind_of_all {Failed : β → Prop}
    (hp : p.All Access.Harmless) (hk : ∀ a, Spares i Failed (k a)) : Spares i Failed (p >>= k) := by
  refine Does.bind ((does_spare hp).mono fun first a hfirst => ?_)
  exact (hk a).mono fun rest b hrest hb => hfirst.append (hrest hb)

end Sparing

section Refreshing

variable {i : Nat}

/-- The refresh of one list failed or its body was rejected. -/
def Failed (r : Except LifecycleError CommitOutcome) : Prop :=
  ∃ error, r = .error error

end Refreshing

section Batches

variable {i : Nat}

/-- The refresh of one list of a batch: what it did and how it ended. -/
structure Segment where
  entry : Entry
  outcome : Except LifecycleError CommitOutcome
  steps : List (Label Access Manager)

/-- The steps are those of the refresh of that list, and of recording its outcome;
when it failed, they leave the protection alone. -/
structure Segment.Of (i : Nat) (g : Segment) : Prop where
  steps : ∃ fetch record, g.steps = fetch ++ record ∧ Spared record ∧
    Prog.Steps machine i (fetchAndCommit g.entry) fetch (.ret g.outcome)
  spared : Failed g.outcome → Spared g.steps

def Segmented (i : Nat) (labels : List (Label Access Manager))
    (outcomes : List (Except LifecycleError CommitOutcome)) : Prop :=
  ∃ segments : List Segment, labels = segments.flatMap Segment.steps ∧
    (∀ g ∈ segments, g.Of i) ∧ outcomes = segments.map Segment.outcome

lemma Segmented.cons {g : Segment} (hg : g.Of i) (h : Segmented i labels outcomes) :
    Segmented i (g.steps ++ labels) (g.outcome :: outcomes) := by
  obtain ⟨segments, rfl, hsegments, rfl⟩ := h
  exact ⟨g :: segments, rfl, forall_mem_cons.mpr ⟨hg, hsegments⟩, rfl⟩

end Batches

section Removing

variable {β : Type} {i : Nat} {id : Bytes}

/-- The registered lists, what is pending, the ruleset and the counts are the
same. -/
structure Kept (s t : Manager) : Prop where
  entries : t.entries = s.entries
  pending : t.pending = s.pending
  matcher : t.matcher = s.matcher
  compiled : ∀ id, t.compiled id = s.compiled id

/-- Steps of a removal that leave the lists and the ruleset alone, and either the
texts as well, or at one of them no list had this id. -/
structure KeptBy (id : Bytes) (labels : List (Label Access Manager)) : Prop where
  kept : ∀ l ∈ labels, Kept l.before l.after
  text : (∀ l ∈ labels, l.after.raw = l.before.raw) ∨
    ∃ l ∈ labels, ∀ entry ∈ l.before.entries, entry.id ≠ id

def Access.Passive {β : Type} : Access β → Prop
  | .find _ | .lockCompile | .unlockCompile | .removeValidators _ => True
  | _ => False

lemma kept_of_frame (h : Frame touched s t)
    (hentries : ¬ touched .entries) (hpending : ∀ id, ¬ touched (.pending id))
    (hmatcher : ¬ touched .matcher) (hstatus : ∀ id, ¬ touched (.status id)) : Kept s t where
  entries := h.entries hentries
  pending := funext fun id => h.pending id (hpending id)
  matcher := h.matcher hmatcher
  compiled id := congrArg (Option.bind · _) (h.status id (hstatus id))

lemma Access.Passive.kept (h : op.Passive)
    (hrun : machine.run op i x s = some (b, t)) : Kept s t ∧ t.raw = s.raw := by
  have hframe := Access.frame (i := i) hrun
  cases op <;> first
    | exact h.elim
    | exact ⟨kept_of_frame hframe nofun nofun nofun nofun, funext fun id => hframe.raw id nofun⟩

lemma KeptBy.cons (hl : Kept l.before l.after ∧ l.after.raw = l.before.raw) (h : KeptBy id labels) :
    KeptBy id (l :: labels) where
  kept := forall_mem_cons.mpr ⟨hl.1, h.kept⟩
  text := by
    rcases h.text with htext | ⟨m, hm, hgone⟩
    · exact .inl (forall_mem_cons.mpr ⟨hl.2, htext⟩)
    · exact .inr ⟨m, mem_cons_of_mem _ hm, hgone⟩

lemma KeptBy.append (hfirst : KeptBy id first)
    (hrest : KeptBy id rest) : KeptBy id (first ++ rest) where
  kept := forall_mem_append.mpr ⟨hfirst.kept, hrest.kept⟩
  text := by
    rcases hfirst.text with hfirst | ⟨l, hl, hgone⟩
    · rcases hrest.text with hrest | ⟨l, hl, hgone⟩
      · exact .inl (forall_mem_append.mpr ⟨hfirst, hrest⟩)
      · exact .inr ⟨l, mem_append_right _ hl, hgone⟩
    · exact .inr ⟨l, mem_append_left _ hl, hgone⟩

end Removing

section Runs

variable {s : Manager} {ops : List Operation} {labels : List (Label Access Manager)}
  {c : Pool Access Manager Reply} {i : Nat}

end Runs

end FastAdHunter.Rules.Lifecycle
