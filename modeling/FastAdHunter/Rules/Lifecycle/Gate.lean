import FastAdHunter.Rules.Lifecycle.Operations

/-!
# The content gate

A body that replaces the stored copy of a list is compared with the counts of
what the list contributes to the ruleset. Those counts are read before the fetch,
and once more under the compile lock when there were none. They need not be the
counts of the copy that is replaced: a list that was switched off contributes
nothing, and a copy that was stored and not yet compiled is not counted.
-/

namespace FastAdHunter.Rules.Lifecycle

open Lib
open List hiding next

/-- The rules that count for the size of a list. -/
def RefreshStats.rules (stats : RefreshStats) : Nat :=
  stats.active + stats.url

/-- What the gate promises of a body that replaces a copy. -/
structure Gated (old body : RefreshStats) : Prop where
  dns : 0 < old.active → 0 < body.active
  tenth : 0 < old.active → collapseMinBaseline ≤ old.rules → old.rules ≤ 10 * body.rules

/-- The body has a tenth of the rules of the copy, rounded down. -/
def RoundedDown (old body : RefreshStats) : Prop :=
  0 < old.active ∧ collapseMinBaseline ≤ old.rules ∧ old.rules % 10 ≠ 0 ∧
    body.rules = old.rules / 10

lemma passed_cases {text : Bytes} (h : rejectionReason text (some old) body = none) :
    old.active = 0 ∨
      body.active ≠ 0 ∧ (old.rules < collapseMinBaseline ∨ old.rules / 10 ≤ body.rules) := by
  simp only [rejectionReason] at h
  split at h
  · cases h
  split at h
  · cases h
  split at h
  · next hold => exact .inl hold
  split at h
  · cases h
  · next hbody =>
    refine .inr ⟨hbody, ?_⟩
    split at h
    · next hsmall => exact .inl hsmall
    split at h
    · cases h
    · next hlarge => exact .inr (Nat.le_of_not_lt hlarge)

/-- **The gate holds but for rounding.** -/
theorem gated_iff {text : Bytes} {old body : RefreshStats}
    (h : rejectionReason text (some old) body = none) :
    Gated old body ↔ ¬ RoundedDown old body := by
  constructor
  · rintro hgated ⟨hold, hlarge, hmod, hbody⟩
    have htenth := hgated.tenth hold hlarge
    omega
  · intro hround
    rcases passed_cases h with hold | ⟨hbody, hsize⟩
    · exact ⟨fun hpos => absurd hold hpos.ne', fun hpos => absurd hold hpos.ne'⟩
    · refine ⟨fun _ => Nat.pos_of_ne_zero hbody, fun hold hlarge => ?_⟩
      by_contra hless
      exact hround ⟨hold, hlarge, by omega, by omega⟩

section Reading

/-- A step that stores a body under an id has, among the steps of its thread
before it, a reading of counts against which the body passes. -/
def PassedGate (past : List (Label Access Manager)) (l : Label Access Manager) : Prop :=
  ∀ id body, l.access = ⟨Bool, .writeRaw id body⟩ →
    ∃ m ∈ past, m.access = ⟨Option ListStatus, .status id⟩ ∧
      rejectionReason body (m.before.compiled id) (statsOf body) = none

def Access.Storeless {β : Type} : Access β → Prop
  | .writeRaw _ _ => False
  | _ => True

/-- Every body the program stores has passed the gate. -/
def Gates (i : Nat) {α : Type} (past : List (Label Access Manager)) (p : Prog Access α) : Prop :=
  Along machine i PassedGate (fun _ _ => True) past p

variable {α β : Type} {i : Nat} {past : List (Label Access Manager)}

variable {op : Access β} {p : Prog Access α}

lemma Access.Minor.storeless (h : op.Minor) : op.Storeless := by
  cases op <;> trivial

lemma storeless_of_minor (h : p.All Access.Minor) : p.All Access.Storeless :=
  h.mono fun _ hop => hop.storeless

lemma Access.Storeless.passed (h : op.Storeless) (b : β) (s t : Manager) :
    PassedGate past ⟨i, ⟨β, op⟩, b, s, t⟩ := by
  intro id body heq
  cases heq
  exact h.elim

lemma Gates.ret (a : α) : Gates i past (.ret a) :=
  trivial

lemma Gates.act (hop : op.Storeless) (h : ∀ x s b t, machine.run op i x s = some (b, t) →
      Gates i (past ++ [⟨i, ⟨β, op⟩, b, s, t⟩]) (next b)) : Gates i past (.act op next) :=
  fun x s b t hrun => ⟨hop.passed b s t, h x s b t hrun⟩

lemma Gates.bind (hp : Gates i past p)
    (hk : ∀ past a, Gates i past (k a)) : Gates i past (p >>= k) :=
  Along.bind (hp.mono fun past a _ => hk past a)

lemma Gates.bind_of_all
    (hp : p.All Access.Storeless) (hm : m ∈ past) (hk : ∀ past a, m ∈ past → Gates i past (k a)) :
    Gates i past (p >>= k) := by
  have hpast : Along machine i PassedGate (fun past _ => m ∈ past) past p :=
    Along.of_all (A := fun past => m ∈ past) (fun _ hop _ _ _ _ _ _ => hop.passed _ _ _)
      (fun _ _ hm => mem_append_left _ hm) hp hm
  exact Along.bind (hpast.mono fun past a hm => hk past a hm)

lemma Gates.of_all (hp : p.All Access.Storeless) : Gates i past p :=
  Along.of_all (A := fun _ => True) (fun _ hop _ _ _ _ _ _ => hop.passed _ _ _)
    (fun _ _ h => h) hp trivial

end Reading

section Refreshing

variable {i : Nat} {past : List (Label Access Manager)}

lemma commit_gates {id text : Bytes}
    (hm : m ∈ past) (hread : m.access = ⟨Option ListStatus, .status id⟩)
    (hpass : rejectionReason text (m.before.compiled id) (statsOf text) = none) :
    Gates i past (do
      commitRaw id text
      cacheValidators id validators
      pure (.ok .committed) : Prog Access (Except LifecycleError CommitOutcome)) := by
  have hcache : (cacheValidators id validators).All Access.Storeless := by
    rw [cacheValidators]
    split
    all_goals exact ⟨trivial, fun _ => trivial⟩
  refine Gates.bind ?_ fun past _ => Gates.bind (Gates.of_all hcache) fun past _ => Gates.ret _
  simp only [commitRaw, Prog.lift_bind]
  intro x s written t hrun
  refine ⟨?_, ?_⟩
  · intro id' body heq
    cases heq
    exact ⟨m, hm, hread, hpass⟩
  · dsimp only
    split
    all_goals exact Gates.act (by trivial) fun _ _ _ _ _ => Gates.ret _

lemma commitChecked_gates (hm : m ∈ past)
    (hread : m.access = ⟨Option ListStatus, .status entry.id⟩) (text : Bytes)
    (validators : Validators) :
    Gates i past (commitChecked entry text validators (m.before.compiled entry.id)) := by
  simp only [commitChecked, Prog.lift_bind]
  refine Gates.act (by trivial) fun x s live t _ => ?_
  have hm := mem_append_left [⟨i, ⟨_, .find entry.id⟩, live, s, t⟩] hm
  split
  · cases hbaseline : m.before.compiled entry.id with
    | some counts =>
      simp only [Option.isSome_some, if_true, Prog.pure_eq, Prog.ret_bind]
      split
      · exact Gates.ret _
      · next hpass =>
        refine commit_gates hm hread ?_
        simpa [hbaseline] using hpass
    | none =>
      -- no counts before the fetch: they are read again now
      simp only [Option.isSome_none, Bool.false_eq_true, if_false, Prog.lift_bind, Option.none_or]
      refine Gates.act (by trivial) fun x' s' status t' hrun => ?_
      cases hrun
      split
      · exact Gates.ret _
      · next hpass =>
        exact commit_gates (mem_append_right _ (mem_singleton_self _)) rfl hpass
  · exact Gates.ret _

lemma fetchUnderLock_gates (entry : Entry) : Gates i past (fetchUnderLock entry) := by
  simp only [fetchUnderLock, Prog.lift_bind]
  refine Gates.act (by trivial) fun _ _ _ _ _ => ?_
  refine Gates.act (by trivial) fun x s status t hrun => ?_
  cases hrun
  refine Gates.act (by trivial) fun _ s₁ stored t₁ _ => ?_
  refine Gates.act (by trivial) fun _ s₂ outcome t₂ _ => ?_
  split
  · exact Gates.ret _
  · exact Gates.ret _
  · refine Gates.bind_of_all (storeless_of_minor (listText_minor _))
      (mem_append_left _ (mem_append_left _
        (mem_append_right _ (mem_singleton_self _)))) fun past cached hm => ?_
    split
    · refine Gates.of_all ?_
      rw [cacheValidators]
      split
      all_goals exact ⟨trivial, fun _ => trivial⟩
    · refine Gates.act (by trivial) fun _ _ _ _ _ => ?_
      refine Gates.bind ?_ fun past outcome => Gates.act (by trivial) fun _ _ _ _ _ => Gates.ret _
      exact commitChecked_gates (mem_append_left _ hm) rfl _ _

lemma fetchAndCommit_gates (entry : Entry) : Gates i past (fetchAndCommit entry) := by
  simp only [fetchAndCommit, Prog.lift_bind]
  refine Gates.act (by trivial) fun _ _ _ _ _ => ?_
  refine Gates.bind (fetchUnderLock_gates entry) fun past outcome => ?_
  exact Gates.act (by trivial) fun _ _ _ _ _ => Gates.ret _

lemma compileAndSwap_storeless : compileAndSwap.All Access.Storeless :=
  compileAndSwap_all (fun _ hop => hop.storeless) (fun _ => trivial) fun _ => trivial

/-- The refreshes store only what has passed the gate. -/
def gating (i : Nat) : Discipline Unit where
  Judges _ p _ := ∀ past, Gates i past p
  Same _ _ := True
  Open _ := True
  refl _ := trivial
  trans _ _ := trivial
  opened _ _ := trivial
  ret _ _ _ := Gates.ret _
  minor hop h _ := Gates.act hop.storeless fun _ _ b _ _ => h b () trivial (fun _ _ => trivial) _
  fetches _ _ h _ := Gates.bind (fetchAndCommit_gates _) fun past outcome =>
    h outcome () trivial (fun _ _ => trivial) (fun _ _ => trivial) past
  locks _ h _ := Gates.act (by trivial) fun _ _ _ _ _ => h () trivial _
  compiles _ h _ := Gates.bind (Gates.of_all compileAndSwap_storeless) fun past stats =>
    h stats () trivial (fun _ => trivial) past
  unlocks _ h _ := Gates.act (by trivial) fun _ _ _ _ _ => h () trivial (fun _ => trivial) _

lemma Operation.gates {op : Operation} (h : op.Refreshes) : Gates i past op.program := by
  match op with
  | .refreshList id => exact Gates.bind ((gating i).refreshList_ends (c := ()) trivial trivial id past) fun _ _ => Gates.ret _
  | .refreshAll => exact Gates.bind ((gating i).refreshAll_ends (c := ()) trivial trivial past) fun _ _ => Gates.ret _
  | .refreshDueLists => exact Gates.bind ((gating i).refreshDueLists_ends (c := ()) trivial trivial past) fun _ _ => Gates.ret _

end Refreshing

/-- **The gate in every run.** A body that a refresh stores in place of a copy,
when the counts it has read are those of the copy: the gate keeps its promise
unless the body has exactly a tenth of the rules, rounded down. -/
theorem gate_iff {s : Manager} {ops : List Operation} {first rest : List (Label Access Manager)}
    {l : Label Access Manager} {c : Pool Access Manager Reply}
    (hrun : Pool.Run machine (together s ops) (first ++ l :: rest) c) {op : Operation}
    (hop : ops[l.thread]? = some op) (hrefresh : op.Refreshes) {id body old : Bytes}
    (hstore : l.access = ⟨Bool, .writeRaw id body⟩) (hold : l.before.text id = some old)
    (hread : ∀ m ∈ first, m.thread = l.thread → m.access = ⟨Option ListStatus, .status id⟩ →
      m.before.compiled id = (l.before.text id).map statsOf) :
    Gated (statsOf old) (statsOf body) ↔ ¬ RoundedDown (statsOf old) (statsOf body) := by
  have hp : (together s ops).threads[l.thread]? = some op.program := by
    simp [together, hop]
  obtain ⟨p, -, hsteps⟩ := hrun.steps hp
  rw [filter_append, filter_cons_of_pos (by simp)] at hsteps
  obtain ⟨m, hm, haccess, hpass⟩ :=
    Along.step (Operation.gates hrefresh : Gates l.thread [] op.program) hsteps rfl id body hstore
  rw [nil_append, mem_filter] at hm
  rw [hread m hm.1 (by simpa using hm.2) haccess, hold] at hpass
  exact gated_iff hpass

/-- The last step of a run stores a body in place of a copy. -/
def storesOver (check : Bytes → Bytes → Bool) (labels : List (Label Access Manager)) : Bool :=
  labels.getLast?.any fun l =>
    match l.access with
    | ⟨_, .writeRaw id body⟩ => l.thread == 0 && (l.before.text id).any fun old => check old body
    | _ => false

lemma exists_of_storesOver (h : storesOver check labels = true) :
    ∃ first l id body old, labels = first ++ [l] ∧ first = labels.dropLast ∧ l.thread = 0 ∧
      l.access = ⟨Bool, .writeRaw id body⟩ ∧ l.before.text id = some old ∧
        check old body = true := by
  obtain ⟨l, hl, hstores⟩ := (Option.any_eq_true _ _).mp h
  split at hstores
  · next id body haccess =>
    rw [Bool.and_eq_true] at hstores
    obtain ⟨old, hold, hcheck⟩ := (Option.any_eq_true _ _).mp hstores.2
    refine ⟨labels.dropLast, l, id, body, old, ?_, rfl, by simpa using hstores.1, haccess, hold,
      hcheck⟩
    exact (dropLast_append_getLast? l hl).symm
  · cases hstores

/-- A refresh passes the switch of its list, then the list is switched off, and
with no counts to compare with an empty body replaces the copy. -/
theorem emptied_while_disabled :
    ∃ first l id body old c, Pool.Run machine
        (together (storedList (lit "||ads.example^"))
          [.refreshList (lit "ads"), .updateList (lit "ads") ⟨some false, none⟩]) (first ++ [l]) c ∧
      l.thread = 0 ∧ l.access = ⟨Bool, .writeRaw id body⟩ ∧ l.before.text id = some old ∧
        ¬ Gated (statsOf old) (statsOf body) := by
  have hrun : ((together (storedList (lit "||ads.example^"))
      [.refreshList (lit "ads"), .updateList (lit "ads") ⟨some false, none⟩]).exec machine
        (turns [(0, 2), (1, 13), (0, 4)] ++ [(0, answered (lit "! empty"))] ++
          turns [(0, 6)])).any (fun r => storesOver (fun old body =>
            decide (0 < (statsOf old).active ∧ ¬ 0 < (statsOf body).active)) r.1) = true := by
    decide +kernel
  obtain ⟨⟨labels, c⟩, hc, hend⟩ := (Option.any_eq_true _ _).mp hrun
  obtain ⟨first, l, id, body, old, rfl, -, hthread, haccess, hold, hcheck⟩ :=
    exists_of_storesOver hend
  obtain ⟨hsome, hnone⟩ := of_decide_eq_true hcheck
  exact ⟨first, l, id, body, old, c, Pool.run_of_exec hc, hthread, haccess, hold,
    fun hgated => hnone (hgated.dns hsome)⟩

/-- Whether the counts of a list are read in a step, and are not those of a
text. -/
def readsOther (text : Bytes) (m : Label Access Manager) : Bool :=
  match m.access with
  | ⟨_, .status id⟩ => decide (m.before.compiled id ≠ some (statsOf text))
  | _ => false

/-- A copy of one rule is replaced by one of two. -/
theorem gate_iff_two_rules :
    ∃ first l id body old c, Pool.Run machine
        (together (storedList (lit "||ads.example^")) [.refreshList (lit "ads")])
          (first ++ [l]) c ∧
      l.access = ⟨Bool, .writeRaw id body⟩ ∧ l.before.text id = some old ∧
        Gated (statsOf old) (statsOf body) := by
  have hrun : ((together (storedList (lit "||ads.example^"))
      [.refreshList (lit "ads")]).exec machine
        (turns [(0, 6)] ++ [(0, answered (lit "||ads.example^\n||bad.example^"))] ++
          turns [(0, 5)])).any (fun r => (r.1.dropLast.all fun m =>
            !readsOther (lit "||ads.example^") m) && storesOver (fun old body =>
              decide (old = lit "||ads.example^" ∧ (statsOf old).rules < collapseMinBaseline)) r.1) =
      true := by
    decide +kernel
  obtain ⟨⟨labels, c⟩, hc, hend⟩ := (Option.any_eq_true _ _).mp hrun
  rw [Bool.and_eq_true] at hend
  obtain ⟨first, l, id, body, old, rfl, hfirst, hthread, haccess, hold, hcheck⟩ :=
    exists_of_storesOver hend.2
  obtain ⟨rfl, hsmall⟩ := of_decide_eq_true hcheck
  have hrun := Pool.run_of_exec hc
  refine ⟨first, l, id, body, _, c, hrun, haccess, hold, (gate_iff hrun
    (by rw [hthread]; rfl) (by trivial) haccess hold ?_).mpr fun hround => ?_⟩
  · intro m hm _ hread
    have hother := all_eq_true.mp hend.1 m (hfirst ▸ hm)
    rw [hold]
    simpa [readsOther, hread] using hother
  · exact absurd hround.2.1 (Nat.not_le_of_lt hsmall)

end FastAdHunter.Rules.Lifecycle
