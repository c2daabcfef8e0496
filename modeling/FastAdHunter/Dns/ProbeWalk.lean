import FastAdHunter.Dns.Health

/-!
# The way of a query

A query selects an endpoint and may claim a probe of it, makes its attempt, and then
records the outcome or gives the claim back. Whatever is to be said of claims, the walk
along these programs is the same; what has to be shown is what a query knows at each of
its stages, and that the accesses between them lead from one to the next.
-/

namespace FastAdHunter.Dns.Health

open Lib List

/-- An access that neither exchanges nor waits. -/
def HealthAccess.AtOnce : {β : Type} → HealthAccess β → Prop
  | _, .load _ => True
  | _, .elapsedMs => True
  | _, .fetchAdd _ _ _ => True
  | _, .goOn => True
  | _, _ => False

/-- The transition of an outcome at every time that agrees with what was sampled. -/
def Follows (policy : Policy) (old : Nat) (outcome : Outcome) (sampled : Option Nat)
    (transition : Transition) : Prop :=
  ∀ nowMs, (∀ n ∈ sampled, n = nowMs) → nextWord policy old outcome nowMs = transition

lemma Follows.leaves_probing (h : Follows policy old outcome sampled transition) :
    transition.LeavesProbing old := by
  cases sampled with
  | none =>
    rw [← h 0 fun _ hn => by cases hn]
    exact nextWordLazy_leaves_probing policy old outcome 0
  | some nowMs =>
    rw [← h nowMs fun _ hn => (Option.some.inj hn).symm]
    exact nextWordLazy_leaves_probing policy old outcome nowMs

/-- The endpoint of which a candidate is a claimed probe. -/
def Candidate.claimed? : Candidate → Option Nat
  | ⟨id, .probe⟩ => some id
  | _ => none

section Walk

variable {σ : Type}

/-- What a query knows and does not lose by what the others do, nor by its accesses that
neither exchange nor wait. -/
def Lasting (M : Machine HealthAccess σ Chance) (inv : σ → Prop) (rely guar : Nat → σ → σ → Prop)
    (i : Nat) (A : σ → Prop) : Prop :=
  (∀ s t, rely i s t → A s → A t) ∧
    ∀ {β : Type} (access : HealthAccess β), access.AtOnce → Leads M inv guar i A access fun _ => A

/-- What a query knows at its stages: without a claim, with an old word to record an outcome
on, with a probe claimed, with a guard for it, and with a guard once the attempt is made. -/
structure Stages (σ : Type) (policy : Policy) (i : Nat) where
  M : Machine HealthAccess σ Chance
  inv : σ → Prop
  rely : Nat → σ → σ → Prop
  guar : Nat → σ → σ → Prop
  stable : Stable rely
  free : Option Nat → σ → Prop
  reading : Nat → Nat → Option Nat → σ → Prop
  picked : Nat → σ → Prop
  held : ProbeGuard → σ → Prop
  tried : ProbeGuard → σ → Prop
  lasting_free : ∀ sampled, Lasting M inv rely guar i (free sampled)
  stable_reading : ∀ endpoint old sampled s t, rely i s t → reading endpoint old sampled s →
    reading endpoint old sampled t
  lasting_picked : ∀ endpoint, Lasting M inv rely guar i (picked endpoint)
  stable_held : ∀ guard s t, rely i s t → held guard s → held guard t
  stable_tried : ∀ guard s t, rely i s t → tried guard s → tried guard t
  forget : ∀ {sampled s}, free sampled s → free none s
  sample : Leads M inv guar i (free none) .elapsedMs fun nowMs => free (some nowMs)
  sample_reading : ∀ {endpoint old}, Leads M inv guar i (reading endpoint old none) .elapsedMs
    fun nowMs => reading endpoint old (some nowMs)
  claims : ∀ {endpoint old nowMs round failures timestamp}, (unpack old).state = .penalized →
    (unpack old).deadlinePassed nowMs = true →
    Leads M inv guar i (free (some nowMs))
      (.compareExchange endpoint old (pack .probing round failures timestamp))
      fun | .ok _ => picked endpoint | .error _ => free (some nowMs)
  guards : ∀ {endpoint}, Leads M inv guar i (picked endpoint) (.load endpoint)
    fun claimed => held ⟨endpoint, claimed⟩
  attempts : ∀ {α Q endpoint} {next : _ → Prog HealthAccess α} (rollback : Option ProbeGuard) {s},
    rollback.elim (free none) held s →
    (∀ attempt t, rollback.elim (free none) tried t → Holds M inv rely guar i Q (next attempt) t) →
    Holds M inv rely guar i Q (.act (.send endpoint) fun _ => .act .await next) s
  reads : ∀ {endpoint} (rollback : Option ProbeGuard), (∀ guard ∈ rollback, guard.endpoint = endpoint) →
    Leads M inv guar i (rollback.elim (free none) tried) (.load endpoint)
      fun old => reading endpoint old none
  stores : ∀ {endpoint old outcome sampled word closedRun penaltyApplied},
    Follows policy old outcome sampled (.store word closedRun penaltyApplied) →
    Leads M inv guar i (reading endpoint old sampled) (.compareExchangeWeak endpoint old word)
      fun | .ok _ => free none | .error actual => reading endpoint actual sampled
  keeps : ∀ {endpoint old outcome sampled s}, Follows policy old outcome sampled .noChange →
    reading endpoint old sampled s → free none s
  restores : ∀ {guard round failures timestamp}, Leads M inv guar i (tried guard)
    (.compareExchangeWeak guard.endpoint guard.claimed (pack .penalized round failures timestamp))
    fun
      | .ok _ => free none
      | .error actual => if actual = guard.claimed then tried guard else free none
  disarms : ∀ {guard s}, (unpack guard.claimed).state ≠ .probing → tried guard s → free none s

namespace Stages

/-- The exchange of a record, once the next word is known. -/
def recordNext (policy : Policy) (endpoint : Nat) (outcome : Outcome) (fuel old : Nat)
    (transition : Transition) (sampled : Option Nat) : Prog HealthAccess Transition :=
  match transition with
  | .noChange => pure .noChange
  | .store word closedRun penaltyApplied => do
    match ← HealthAccess.compareExchangeWeak endpoint old word with
    | .ok _ => pure (.store word closedRun penaltyApplied)
    | .error current => recordFrom policy endpoint outcome fuel current sampled

variable {policy : Policy} {i : Nat} (S : Stages σ policy i) {s : σ} {A : σ → Prop} {endpoint : Nat}
  {outcome : Outcome} {rollback : Option ProbeGuard}

/-- A query walks on and ends with this. -/
abbrev Walks {α : Type} (Q : α → σ → Prop) (p : Prog HealthAccess α) (s : σ) : Prop :=
  Holds S.M S.inv S.rely S.guar i Q p s

variable {S}

lemma ret (hs : S.free none s) : S.Walks (fun _ => S.free none) (.ret a) s :=
  fun t hst => (S.lasting_free none).1 s t hst hs

lemma goOn {next : Empty → Prog HealthAccess α} : S.Walks Q (.act .goOn next) s :=
  fun _ _ _ _ b => b.elim

lemma atOnce (hA : Lasting S.M S.inv S.rely S.guar i A) (hp : p.All HealthAccess.AtOnce)
    (hs : A s) : S.Walks (fun _ => A) p s :=
  Holds.of_all hA.1 (fun op hop s x b t hs hinv hrun => hA.2 op hop s x b t hinv hs hrun) hp hs

lemma lazyNow {A : Option Nat → σ → Prop} (hA : ∀ sampled s t, S.rely i s t → A sampled s → A sampled t)
    (hsample : Leads S.M S.inv S.guar i (A none) .elapsedMs fun nowMs => A (some nowMs))
    (sampled : Option Nat) (hs : A sampled s) :
    S.Walks (fun nowMs => A (some nowMs)) (Health.lazyNow sampled) s := by
  cases sampled with
  | some nowMs => exact fun t hst => hA _ s t hst hs
  | none => exact Holds.act (hA none) hsample hs fun nowMs t ht u htu => hA _ t u htu ht

lemma recordFrom (fuel old : Nat) (sampled : Option Nat) (hs : S.reading endpoint old sampled s) :
    S.Walks (fun _ => S.free none) (recordFrom policy endpoint outcome fuel old sampled) s := by
  induction fuel generalizing old sampled s with
  | zero => exact goOn
  | succ fuel ih =>
    have hexchange : ∀ (transition : Transition) sampled t,
        Follows policy old outcome sampled transition → S.reading endpoint old sampled t →
        S.Walks (fun _ => S.free none)
          (recordNext policy endpoint outcome fuel old transition sampled) t := by
      intro transition sampled t hnext ht
      cases transition with
      | noChange => exact ret (S.keeps hnext ht)
      | store word closedRun penaltyApplied =>
        refine Holds.act (S.stable_reading _ _ _) (S.stores hnext) ht fun exchanged t ht => ?_
        cases exchanged with
        | ok _ => exact ret ht
        | error actual => exact ih _ _ ht
    rw [Health.recordFrom]
    cases hlazy : nextWordLazy policy old outcome with
    | ready transition =>
      refine hexchange transition sampled s (fun nowMs _ => ?_) hs
      rw [nextWord, hlazy]
      rfl
    | clocked transition =>
      refine Holds.bind S.stable ((lazyNow (A := S.reading endpoint old)
        (S.stable_reading _ _) S.sample_reading sampled hs).mono fun nowMs t ht => ?_)
      refine hexchange (transition nowMs) (some nowMs) t (fun nowMs' hnow => ?_) ht
      rw [nextWord, hlazy, hnow nowMs rfl]
      rfl

lemma stable_tried? (s t : σ) (hst : S.rely i s t) (hs : rollback.elim (S.free none) S.tried s) :
    rollback.elim (S.free none) S.tried t := by
  cases rollback with
  | none => exact (S.lasting_free none).1 s t hst hs
  | some guard => exact S.stable_tried guard s t hst hs

lemma record (fuel : Nat) (hguard : ∀ guard ∈ rollback, guard.endpoint = endpoint)
    (hs : rollback.elim (S.free none) S.tried s) :
    S.Walks (fun _ => S.free none) (record policy fuel endpoint outcome) s :=
  Holds.act stable_tried? (S.reads rollback hguard) hs fun _ _ ht => recordFrom fuel _ _ ht

lemma restoreFrom {guard : ProbeGuard} {round : Nat} (fuel current : Nat)
    (hs : (if current = guard.claimed then S.tried guard else S.free none) s) :
    S.Walks (fun _ => S.free none) (restoreFrom guard.endpoint guard.claimed
      (pack .penalized round failures timestamp) fuel current) s := by
  induction fuel generalizing current s with
  | zero => exact goOn
  | succ fuel ih =>
    rw [Health.restoreFrom]
    split at hs
    next heq =>
      rw [if_pos heq, heq]
      refine Holds.act (S.stable_tried guard) S.restores hs fun exchanged t ht => ?_
      cases exchanged with
      | ok _ => exact ret ht
      | error actual => exact ih actual ht
    next hne =>
      rw [if_neg hne]
      exact ret hs

lemma dropGuard (fuel : Nat) (hs : rollback.elim (S.free none) S.tried s) :
    S.Walks (fun _ => S.free none) (dropGuard fuel rollback) s := by
  cases rollback with
  | none => exact ret hs
  | some guard =>
    rw [Health.dropGuard, ProbeGuard.drop]
    split
    · exact restoreFrom fuel _ ((if_pos rfl).symm ▸ hs)
    next hstate => exact ret (S.disarms hstate hs)

/-- What a selection leaves: a claimed probe only if it was to claim one. -/
def Chosen (S : Stages σ policy i) (claim : Bool) (candidate : Option Candidate) (s : σ) : Prop :=
  (candidate.bind Candidate.claimed?).elim (S.free none) (fun id s => claim = true ∧ S.picked id s) s

lemma selectFrom (claim : Bool) (indices : List Nat) (hindices : ∀ e ∈ indices, e ≤ 255)
    (sampled : Option Nat) (forced : Option (Nat × Nat)) (hs : S.free sampled s) :
    S.Walks (S.Chosen claim) (selectFrom claim indices sampled forced) s := by
  induction indices generalizing sampled forced s with
  | nil =>
    intro t hst
    have ht := S.forget ((S.lasting_free sampled).1 s t hst hs)
    cases forced with
    | none | some => exact ht
  | cons index rest ih =>
    obtain ⟨hindex, hrest⟩ := forall_mem_cons.mp hindices
    have hid : min index 255 = index := Nat.min_eq_left hindex
    simp only [Health.selectFrom, Prog.lift_bind, hid]
    refine Holds.act (S.lasting_free sampled).1 ((S.lasting_free sampled).2 (.load index) trivial) hs
      fun word t ht => ?_
    split
    · exact fun u htu => S.forget ((S.lasting_free sampled).1 t u htu ht)
    next hstate =>
      split
      next hclaim =>
        refine Holds.bind S.stable ((lazyNow (A := S.free) (fun _ => (S.lasting_free _).1)
          S.sample sampled ht).mono fun nowMs t ht => ?_)
        split
        next hpassed =>
          refine Holds.act (S.lasting_free _).1 (S.claims hstate hpassed) ht fun exchanged t ht => ?_
          cases exchanged with
          | ok _ => exact fun u htu => ⟨hclaim, (S.lasting_picked index).1 t u htu ht⟩
          | error actual => exact ih hrest _ _ ht
        · exact ih hrest _ _ ht
      · exact ih hrest _ _ ht
    · exact ih hrest _ _ ht

lemma select (pool : UpstreamPool) (start : Nat) (claim : Bool) (hs : S.free none s) :
    S.Walks (S.Chosen claim) (select pool.servers.length start claim) s := by
  refine selectFrom claim _ (fun e he => ?_) none none hs
  have hfew : pool.servers.length ≤ 8 := pool.servers_few
  obtain ⟨k, hk, rfl⟩ := mem_range'.mp he
  omega

lemma countIf_atOnce (condition : Bool) (index : Nat) (counter : Counter) :
    (countIf condition index counter).All HealthAccess.AtOnce := by
  unfold countIf
  split
  · exact ⟨trivial, fun _ => trivial⟩
  · trivial

lemma countOutcome_atOnce (index : Nat) (closedRun penaltyApplied : Option Nat) :
    (countRun index closedRun >>= fun _ => countPenalty index penaltyApplied).All
      HealthAccess.AtOnce := by
  refine Prog.All.bind ?_ fun _ => ?_
  · cases closedRun with
    | none => trivial
    | some run => exact ⟨trivial, fun _ => trivial⟩
  · cases penaltyApplied with
    | none => trivial
    | some penalizedMs => exact ⟨trivial, fun _ => ⟨trivial, fun _ => trivial⟩⟩

lemma recordEnd {pool : UpstreamPool} {S : Stages σ pool.policy i} (fuel : Nat) (recording : Bool)
    (hguard : ∀ guard ∈ rollback, guard.endpoint = endpoint ∧ recording = true)
    (hs : rollback.elim (S.free none) S.tried s) :
    S.Walks (fun _ => S.free none) (recordEnd pool fuel endpoint recording result) s := by
  unfold Health.recordEnd
  split
  · refine Holds.bind S.stable ((record fuel (fun guard h => (hguard guard h).1) hs).mono
      fun transition t ht => ?_)
    cases transition with
    | noChange => exact ret ht
    | store word closedRun penaltyApplied =>
      exact atOnce (S.lasting_free none) (countOutcome_atOnce ..) ht
  next hnot =>
    cases rollback with
    | none => exact ret hs
    | some guard => exact absurd (hguard guard rfl).2 hnot

lemma guardFor (candidate : Candidate) (hs : candidate.claimed?.elim (S.free none) S.picked s) :
    S.Walks (fun rollback t => (∀ guard ∈ rollback, candidate.claimed? = some guard.endpoint) ∧
      rollback.elim (S.free none) S.held t)
      (guardFor candidate.id (candidate.selected == .probe)) s := by
  obtain ⟨id, selected⟩ := candidate
  cases selected with
  | probe =>
    refine Holds.act (S.lasting_picked id).1 S.guards hs fun claimed t ht u htu => ⟨?_, ?_⟩
    · rintro guard ⟨⟩
      rfl
    · exact S.stable_held _ t u htu ht
  | healthy | forced =>
    refine fun t hst => ⟨?_, (S.lasting_free none).1 s t hst hs⟩
    rintro guard ⟨⟩

lemma lasting_picked? (claimed : Option Nat) :
    Lasting S.M S.inv S.rely S.guar i (claimed.elim (S.free none) S.picked) := by
  cases claimed with
  | none => exact S.lasting_free none
  | some endpoint => exact S.lasting_picked endpoint

lemma walkFrom (pool : UpstreamPool) {S : Stages σ pool.policy i} (fuel : Nat) (recording : Bool)
    (rounds start : Nat) (probed : Bool) (lastErr : Option ErrorKind) (hs : S.free none s) :
    S.Walks (fun _ => S.free none) (walkFrom pool fuel recording rounds start probed lastErr) s := by
  induction rounds generalizing start probed lastErr s with
  | zero => exact goOn
  | succ rounds ih =>
    refine Holds.bind S.stable ((select pool start _ hs).mono fun candidate t ht => ?_)
    cases candidate with
    | none => exact ret ht
    | some candidate =>
      have hrecording : ∀ id, candidate.claimed? = some id → recording = true := by
        intro id hid
        rw [Chosen, Option.bind_some, hid] at ht
        exact (Bool.and_eq_true_iff.mp ht.1).1
      have ht : candidate.claimed?.elim (S.free none) S.picked t := by
        rw [Chosen, Option.bind_some] at ht
        cases hid : candidate.claimed? with
        | none => rwa [hid] at ht
        | some id =>
          rw [hid] at ht
          exact ht.2
      have hcount := fun condition counter => countIf_atOnce condition candidate.id counter
      refine Holds.bind S.stable ((atOnce (lasting_picked? _) (hcount ..) ht).mono fun _ t ht => ?_)
      refine Holds.bind S.stable ((atOnce (lasting_picked? _) (hcount ..) ht).mono fun _ t ht => ?_)
      refine Holds.bind S.stable ((guardFor candidate ht).mono fun rollback t ⟨hguard, ht⟩ => ?_)
      simp only [Prog.lift_bind]
      refine S.attempts rollback ht fun attempt t ht => ?_
      cases attempt with
      | none => exact Holds.bind S.stable ((dropGuard fuel ht).mono fun _ t ht => ret ht)
      | some result =>
        refine Holds.bind S.stable ((recordEnd fuel recording (fun guard h => ?_) ht).mono
          fun _ t ht => ?_)
        · have hid := hguard guard h
          refine ⟨?_, hrecording _ hid⟩
          obtain ⟨id, selected⟩ := candidate
          cases selected with
          | probe => exact (Option.some.inj hid).symm
          | healthy | forced => cases hid
        · have hcounted := fun condition counter =>
            atOnce (S.lasting_free none) (hcount condition counter) ht
          cases result with
          | ok response => exact Holds.bind S.stable ((hcounted ..).mono fun _ t ht => ret ht)
          | error err => exact Holds.bind S.stable ((hcounted ..).mono fun _ t ht => ih _ _ _ ht)

end Stages

end Walk

end FastAdHunter.Dns.Health
