import FastAdHunter.Dns.ProbeClaims
import Mathlib.Data.List.AList

/-!
# One probe at a time

An attempt that was sent before a probe was claimed can end the claim: its outcome
is recorded on the probing word, and when it failed the endpoint has a new
deadline. That deadline lies further away than an attempt may last, so the probe
is over before the endpoint can be claimed again. A record of what each query is
doing is kept beside the state: whether it runs or waits, since when, and which
claim it has.
-/

namespace FastAdHunter.Dns.Health

open Lib

/-- A probe that was claimed; it is in flight until its attempt ends. -/
structure Claim where
  endpoint : Nat
  since : Nat
  inFlight : Bool
  deriving DecidableEq

/-- What a query is doing: it runs, or waits since some time, or does neither. -/
structure Activity where
  running : Bool
  waiting : Option Nat
  claim : Option Claim
  deriving DecidableEq

def Activity.idle : Activity := ⟨false, none, none⟩

/-- An ended claim is forgotten with the next exchange or attempt. -/
def Activity.after (a : Activity) {β : Type} (access : HealthAccess β) (result : β) (now : Nat) :
    Activity :=
  match access with
  | .compareExchange endpoint _ new =>
    match result with
    | .ok _ =>
      if Probing new then { a with running := true, claim := some ⟨endpoint, now, true⟩ }
      else { a with running := true }
    | .error _ => { a with running := true }
  | .compareExchangeWeak _ _ _ =>
    match result with
    | .ok _ => { a with running := true, claim := a.claim.filter (·.inFlight) }
    | .error _ => { a with running := true }
  | .send _ => ⟨false, some now, a.claim.filter (·.inFlight)⟩
  | .await => ⟨true, none, a.claim.map fun claim => { claim with inFlight := false }⟩
  | .finish => .idle
  | _ => { a with running := true }

abbrev Activities := AList fun _ : Nat => Activity

def activityOf (g : Activities) (i : Nat) : Activity := (g.lookup i).getD .idle

def noteActivity (l : Label HealthAccess Endpoints) (g : Activities) : Activities :=
  g.insert l.thread ((activityOf g l.thread).after l.access.2 l.result l.after.now)

lemma activityOf_insert (g : Activities) (i : Nat) (a : Activity) (j : Nat) :
    activityOf (g.insert i a) j = if j = i then a else activityOf g j := by
  unfold activityOf
  split
  next h =>
    subst h
    rw [AList.lookup_insert]
    rfl
  next h => rw [AList.lookup_insert_ne h]

lemma activityOf_forall {P : Activity → Prop} (h : ∀ p ∈ g.entries, P p.2)
    (hidle : P .idle) (i : Nat) : P (activityOf g i) := by
  unfold activityOf
  cases hi : g.lookup i with
  | none => exact hidle
  | some a => exact h _ (AList.mem_lookup_iff.mp hi)

/-- The query has claimed a probe of this endpoint, and its attempt has not
ended. -/
def InFlight (g : Activities) (i endpoint : Nat) : Prop :=
  (activityOf g i).claim.any fun claim => claim.inFlight && claim.endpoint == endpoint

instance (g : Activities) (i endpoint : Nat) : Decidable (InFlight g i endpoint) :=
  inferInstanceAs (Decidable (_ = true))

/-- At most one probe of each endpoint is in flight. -/
def OneProbe (g : Activities) : Prop :=
  ∀ i j e, InFlight g i e → InFlight g j e → i = j

/-- Time passes only while no query runs. -/
def Instant (m : Label HealthAccess (Endpoints × Activities)) : Prop :=
  m.after.1.now ≠ m.before.1.now → ∀ p ∈ m.before.2.entries, p.2.running = false

/-- No attempt outlasts its bound. -/
def WithinBound (timeoutMs : Nat) (m : Label HealthAccess (Endpoints × Activities)) : Prop :=
  ∀ p ∈ m.before.2.entries, ∀ since ∈ p.2.waiting,
    m.after.1.now ≤ since + attemptLegs * timeoutMs * nanosPerMilli

/-- Every deadline that can be set now fits its 50 bits. -/
def InEra (m : Label HealthAccess (Endpoints × Activities)) : Prop :=
  m.after.1.now / nanosPerMilli + penaltyMaxMs * 125 / 100 < 2 ^ 50

def Orderly (timeoutMs : Nat) (m : Label HealthAccess (Endpoints × Activities)) : Prop :=
  Instant m ∧ WithinBound timeoutMs m ∧ InEra m

instance (m : Label HealthAccess (Endpoints × Activities)) : Decidable (Instant m) :=
  inferInstanceAs (Decidable (_ → _))

instance (timeoutMs : Nat) (m : Label HealthAccess (Endpoints × Activities)) :
    Decidable (WithinBound timeoutMs m) :=
  inferInstanceAs (Decidable (∀ p ∈ m.before.2.entries, ∀ since ∈ p.2.waiting, _ ≤ _))

instance (m : Label HealthAccess (Endpoints × Activities)) : Decidable (InEra m) :=
  inferInstanceAs (Decidable (_ < _))

instance (timeoutMs : Nat) : DecidablePred (Orderly timeoutMs) :=
  fun _ => inferInstanceAs (Decidable (_ ∧ _))

section Shut

variable (pool : UpstreamPool)

/-- How long an attempt may last. -/
def UpstreamPool.attemptBound : Nat := attemptLegs * pool.timeoutMs * nanosPerMilli

/-- As long as an attempt that began then may last, the endpoint cannot be
claimed. -/
def Shut (since word : Nat) : Prop :=
  (unpack word).state = .penalized →
    since / nanosPerMilli + attemptLegs * pool.timeoutMs < (unpack word).timestampMs

lemma pack_lt (state : State) (round failures timestamp : Nat) :
    pack state round failures timestamp < 2 ^ 64 := by
  have hcode : state.code < 4 := by cases state <;> decide
  unfold pack
  omega

lemma penalize_shut (w : Word) (failures nowMs : Nat)
    (hera : nowMs + penaltyMaxMs * 125 / 100 < 2 ^ 50) (hsince : since / nanosPerMilli ≤ nowMs) :
    Shut pool since (pack .penalized (nextRound pool.policy w nowMs) failures
      (min (nowMs + penalty pool.policy (nextRound pool.policy w nowMs) nowMs) u64Max)) := by
  intro _
  rw [unpack_pack]
  dsimp only
  have ht := pool.timeout_range
  have hbase : pool.policy.penaltyBaseMs = 10 * (3 * pool.timeoutMs) := rfl
  have hmax : pool.policy.penaltyMaxMs = 300000 := rfl
  have hge := penalty_ge pool.policy (nextRound pool.policy w nowMs) nowMs
    (by rw [hbase, u64Max]; omega) (by rw [hbase, hmax]; omega)
  have hle := penalty_le pool.policy (nextRound pool.policy w nowMs) nowMs
  rw [hmax] at hle
  rw [penaltyMaxMs] at hera
  generalize penalty pool.policy (nextRound pool.policy w nowMs) nowMs = length at hge hle ⊢
  have hfits : min (nowMs + length) u64Max % 2 ^ 50 = nowMs + length := by
    rw [u64Max]
    omega
  rw [hfits, attemptLegs]
  omega

/-- **No outcome opens an endpoint** while an attempt that began before may
last. -/
theorem nextWord_shut {old : Nat} (hold : old < 2 ^ 64) (outcome : Outcome)
    (hera : nowMs + penaltyMaxMs * 125 / 100 < 2 ^ 50)
    (hsince : since / nanosPerMilli ≤ nowMs) (hshut : Shut pool since old) {new : Nat}
    (h : nextWord pool.policy old outcome nowMs = .store new closedRun penaltyApplied) :
    Shut pool since new := by
  have hhealthy : ∀ round failures timestamp,
      Shut pool since (pack .healthy round failures timestamp) := by
    intro round failures timestamp hstate
    rw [unpack_pack] at hstate
    exact State.noConfusion hstate
  -- a failure on a penalised word keeps the deadline
  have hkept : (unpack old).state = .penalized → ∀ failures,
      Shut pool since (pack .penalized (unpack old).penaltyRound failures
        (unpack old).timestampMs) := by
    intro hstate failures _
    have hfits : (unpack old).timestampMs % 2 ^ 50 = (unpack old).timestampMs := by
      simp only [unpack]
      omega
    rw [unpack_pack, hfits]
    exact hshut hstate
  have hmoves := nextWord_moves pool.policy old outcome nowMs
  rw [h] at hmoves
  generalize htransition : Transition.store new closedRun penaltyApplied = transition at hmoves
  cases hmoves with
  | idle | saturated => cases htransition
  | closes | recovers =>
    cases htransition
    exact hhealthy _ _ _
  | counts state hstate hprobing =>
    cases htransition
    cases state with
    | healthy => exact hhealthy _ _ _
    | penalized => exact hkept hstate _
    | probing => exact absurd rfl hprobing
  | penalizes =>
    cases htransition
    exact penalize_shut pool _ _ _ hera hsince

end Shut

section Steps

variable (pool : UpstreamPool)

/-- The queries with the record, confined to orderly steps. -/
def watched : Machine HealthAccess (Endpoints × Activities) Chance :=
  (machine.ghost noteActivity).restrict (Orderly pool.timeoutMs)

/-- What every orderly step of a query keeps to. -/
structure StepOf (i : Nat) (s t : Endpoints × Activities) : Prop where
  now_le : s.1.now ≤ t.1.now
  instant : ∀ j, (activityOf s.2 j).running = true → t.1.now = s.1.now
  within : ∀ j since, (activityOf s.2 j).waiting = some since →
    t.1.now ≤ since + pool.attemptBound
  era : t.1.now / nanosPerMilli + penaltyMaxMs * 125 / 100 < 2 ^ 50
  others : ∀ j, j ≠ i → activityOf t.2 j = activityOf s.2 j

variable {pool} {i : Nat} {β : Type} {access : HealthAccess β} {x : Chance} {b : β}
  {s t : Endpoints × Activities}

lemma serve_now {s t : Endpoints} (h : serve access x s = some (b, t)) :
    t.now = s.now + x.elapsed := by
  have hexchange : ∀ (s : Endpoints) endpoint current new fails,
      (s.exchange endpoint current new fails).2.now = s.now := by
    intro s endpoint current new fails
    unfold Endpoints.exchange
    split <;> rfl
  cases access with
  | compareExchange | compareExchangeWeak =>
    have hexchanged := congrArg (fun r => r.2.now) (Option.some.inj h)
    exact hexchanged.symm.trans (hexchange _ _ _ _ _)
  | goOn => cases h
  | _ =>
    cases h
    rfl

lemma watched_run (h : (watched pool).run access i x s = some (b, t)) :
    serve access x s.1 = some (b, t.1) ∧
      activityOf t.2 i = (activityOf s.2 i).after access b t.1.now ∧ StepOf pool i s t := by
  obtain ⟨hghost, hinstant, hwithin, hera⟩ := Machine.restrict_run h
  obtain ⟨hserve, hnote⟩ := Machine.ghost_run hghost
  have hactivity : ∀ j, activityOf t.2 j =
      if j = i then (activityOf s.2 i).after access b t.1.now else activityOf s.2 j := by
    intro j
    rw [hnote]
    exact activityOf_insert _ _ _ _
  refine ⟨hserve, (hactivity i).trans (if_pos rfl), ?_, ?_, ?_, hera, ?_⟩
  · rw [serve_now hserve]
    exact Nat.le_add_right _ _
  · intro j hj
    by_contra hne
    have hstill := activityOf_forall (P := fun a => a.running = false) (hinstant hne) rfl j
    rw [hstill] at hj
    cases hj
  · intro j since hj
    exact activityOf_forall (P := fun a => ∀ since ∈ a.waiting, t.1.now ≤ since +
      pool.attemptBound) hwithin (fun _ h => by cases h) j since hj
  · exact fun j hj => (hactivity j).trans (if_neg hj)

end Steps

section Securing

variable (pool : UpstreamPool)

/-- A claim of a query: it is no older than an attempt may be, its query runs or
waits since the claim, and its endpoint cannot be claimed. -/
structure ClaimOk (s : Endpoints) (a : Activity) (claim : Claim) : Prop where
  since_le : claim.since ≤ s.now
  now_le : s.now ≤ claim.since + pool.attemptBound
  placed : a.running = true ∨ (a.waiting = some claim.since ∧ claim.inFlight = true)
  starting : claim.inFlight = true → a.running = true → claim.since = s.now
  shut : Shut pool claim.since (s.word claim.endpoint)

/-- Every claim is in order, and no two are of one endpoint. -/
structure Secured (s : Endpoints × Activities) : Prop where
  bounded : ∀ e, s.1.word e < 2 ^ 64
  claims : ∀ i claim, (activityOf s.2 i).claim = some claim →
    ClaimOk pool s.1 (activityOf s.2 i) claim
  one : ∀ i j claim other, (activityOf s.2 i).claim = some claim →
    (activityOf s.2 j).claim = some other → claim.endpoint = other.endpoint → i = j

variable {pool} {i : Nat} {s t : Endpoints × Activities}

lemma ClaimOk.other (hstep : StepOf pool i s t) (hj : j ≠ i)
    (h : ClaimOk pool s.1 (activityOf s.2 j) claim)
    (hshut : Shut pool claim.since (t.1.word claim.endpoint)) :
    ClaimOk pool t.1 (activityOf t.2 j) claim := by
  rw [hstep.others j hj]
  refine ⟨h.since_le.trans hstep.now_le, ?_, h.placed, ?_, hshut⟩
  · rcases h.placed with hrunning | ⟨hwaiting, -⟩
    · rw [hstep.instant j hrunning]
      exact h.now_le
    · exact hstep.within j _ hwaiting
  · intro hflight hrunning
    rw [hstep.instant j hrunning]
    exact h.starting hflight hrunning

lemma Secured.step (h : Secured pool s) (hstep : StepOf pool i s t)
    (hbounded : ∀ e, t.1.word e < 2 ^ 64)
    (hwords : ∀ j claim, j ≠ i → (activityOf s.2 j).claim = some claim →
      Shut pool claim.since (t.1.word claim.endpoint))
    (hown : ∀ claim, (activityOf t.2 i).claim = some claim →
      ClaimOk pool t.1 (activityOf t.2 i) claim ∧
        ∀ j other, j ≠ i → (activityOf s.2 j).claim = some other →
          other.endpoint ≠ claim.endpoint) : Secured pool t := by
  have hother : ∀ j claim, j ≠ i → (activityOf t.2 j).claim = some claim →
      (activityOf s.2 j).claim = some claim := by
    intro j claim hj hclaim
    rw [hstep.others j hj] at hclaim
    exact hclaim
  refine ⟨hbounded, fun j claim hclaim => ?_, fun j k claim other hclaim hother' heq => ?_⟩
  · by_cases hj : j = i
    · subst hj
      exact (hown claim hclaim).1
    · have hclaim := hother j claim hj hclaim
      exact (h.claims j claim hclaim).other hstep hj (hwords j claim hj hclaim)
  · by_cases hj : j = i
    · by_cases hk : k = i
      · rw [hj, hk]
      · subst hj
        exact absurd heq.symm ((hown claim hclaim).2 k other hk (hother k other hk hother'))
    · by_cases hk : k = i
      · subst hk
        exact absurd heq ((hown other hother').2 j claim hj (hother j claim hj hclaim))
      · exact h.one j k claim other (hother j claim hj hclaim) (hother k other hk hother') heq

lemma Secured.still (h : Secured pool s) (hstep : StepOf pool i s t) (hword : t.1.word = s.1.word)
    (hown : ∀ claim, (activityOf t.2 i).claim = some claim →
      ClaimOk pool t.1 (activityOf t.2 i) claim ∧
        ∀ j other, j ≠ i → (activityOf s.2 j).claim = some other →
          other.endpoint ≠ claim.endpoint) : Secured pool t := by
  refine h.step hstep (by rw [hword]; exact h.bounded) (fun j claim _ hclaim => ?_) hown
  rw [hword]
  exact (h.claims j claim hclaim).shut

lemma Secured.bounded_update (h : Secured pool s)
    (hword : t.1.word = Function.update s.1.word endpoint new) (hnew : new < 2 ^ 64) (e : Nat) :
    t.1.word e < 2 ^ 64 := by
  rw [hword, Function.update_apply]
  split
  · exact hnew
  · exact h.bounded e

/-- A query at work: if it has a claim, it runs. -/
def AtWork (a : Activity) : Prop :=
  a.waiting = none ∧ ∀ claim ∈ a.claim, a.running = true

lemma Secured.goesOn (h : Secured pool s) (hstep : StepOf pool i s t)
    (hword : t.1.word = s.1.word) (hwork : AtWork (activityOf s.2 i))
    (hafter : activityOf t.2 i = { activityOf s.2 i with running := true }) : Secured pool t := by
  refine h.still hstep hword fun claim hclaim => ?_
  rw [hafter] at hclaim ⊢
  have hrunning := hwork.2 claim hclaim
  have hok := h.claims i claim hclaim
  have hnow := hstep.instant i hrunning
  refine ⟨⟨?_, ?_, .inl rfl, fun hflight _ => ?_, ?_⟩, fun j other hj hother heq => ?_⟩
  · rw [hnow]
    exact hok.since_le
  · rw [hnow]
    exact hok.now_le
  · rw [hnow]
    exact hok.starting hflight hrunning
  · rw [hword]
    exact hok.shut
  · exact hj (h.one j i other claim hother hclaim heq)

end Securing

section Rules

variable (pool : UpstreamPool)

/-- What the others leave a query: its activity, and the time while it runs. -/
def SameActivity (i : Nat) (s t : Endpoints × Activities) : Prop :=
  activityOf t.2 i = activityOf s.2 i ∧
    ((activityOf s.2 i).running = true → t.1.now = s.1.now)

def OthersActivity (i : Nat) (s t : Endpoints × Activities) : Prop :=
  ∀ j, j ≠ i → SameActivity j s t

lemma stable_sameActivity : Stable SameActivity where
  refl := fun _ _ => ⟨rfl, fun _ => rfl⟩
  trans := by
    intro i s t u hst htu
    refine ⟨htu.1.trans hst.1, fun hrunning => ?_⟩
    rw [htu.2 (by rw [hst.1]; exact hrunning), hst.2 hrunning]

lemma StepOf.othersActivity (h : StepOf pool i s t) : OthersActivity i s t :=
  fun j hj => ⟨h.others j hj, h.instant j⟩

/-- An access takes a query from what it knows of the claims to this. -/
abbrev Brings (i : Nat) {β : Type} (A : Endpoints × Activities → Prop) (access : HealthAccess β)
    (B : β → Endpoints × Activities → Prop) : Prop :=
  Leads (watched pool) (Secured pool) OthersActivity i A access B

/-- A sampled time is the time, as long as the query runs. -/
def Sampled (i : Nat) (sampled : Option Nat) (s : Endpoints × Activities) : Prop :=
  ∀ nowMs ∈ sampled, (activityOf s.2 i).running = true ∧ nowMs = s.1.elapsedMs

lemma Sampled.same (h : Sampled i sampled s) (hst : SameActivity i s t) : Sampled i sampled t := by
  intro nowMs hmem
  obtain ⟨hrunning, rfl⟩ := h nowMs hmem
  rw [hst.1, Endpoints.elapsedMs, Endpoints.elapsedMs, hst.2 hrunning]
  exact ⟨hrunning, rfl⟩

/-- What a query knows of its activity and does not lose by running. -/
structure Known (A : Activity → Prop) : Prop where
  work : ∀ a, A a → AtWork a
  runs : ∀ a, A a → A { a with running := true }

/-- The claim, if there is one, has ended. -/
def Ready (a : Activity) : Prop :=
  a.waiting = none ∧ ∀ claim ∈ a.claim, a.running = true ∧ claim.inFlight = false

/-- A probe of the endpoint has been claimed and not yet sent. -/
def Claimed (endpoint : Nat) (a : Activity) : Prop :=
  a.waiting = none ∧ a.running = true ∧ ∃ since, a.claim = some ⟨endpoint, since, true⟩

def Ended (endpoint : Nat) (a : Activity) : Prop :=
  a.waiting = none ∧ a.running = true ∧ ∃ since, a.claim = some ⟨endpoint, since, false⟩

lemma known_ready : Known Ready where
  work := fun _ h => ⟨h.1, fun claim hclaim => (h.2 claim hclaim).1⟩
  runs := fun _ h => ⟨h.1, fun claim hclaim => ⟨rfl, (h.2 claim hclaim).2⟩⟩

lemma known_claimed (endpoint : Nat) : Known (Claimed endpoint) where
  work := fun _ h => ⟨h.1, fun _ _ => h.2.1⟩
  runs := fun _ h => ⟨h.1, rfl, h.2.2⟩

lemma known_ended (endpoint : Nat) : Known (Ended endpoint) where
  work := fun _ h => ⟨h.1, fun _ _ => h.2.1⟩
  runs := fun _ h => ⟨h.1, rfl, h.2.2⟩

lemma Ended.ready (h : Ended endpoint a) : Ready a := by
  obtain ⟨hwaiting, hrunning, since, hclaim⟩ := h
  refine ⟨hwaiting, fun claim hmem => ?_⟩
  rw [hclaim] at hmem
  cases hmem
  exact ⟨hrunning, rfl⟩

lemma HealthAccess.AtOnce.after (h : access.AtOnce)
    (a : Activity) (b : β) (now : Nat) : a.after access b now = { a with running := true } := by
  cases access <;> first | rfl | exact h.elim

variable {pool} {i : Nat} {α β : Type} {A : Activity → Prop} {sampled : Option Nat}
  {s t : Endpoints × Activities}

/-- What a query is doing, with the time it has sampled. -/
def Doing (i : Nat) (A : Activity → Prop) (sampled : Option Nat) (s : Endpoints × Activities) : Prop :=
  A (activityOf s.2 i) ∧ Sampled i sampled s

lemma Doing.same (hst : SameActivity i s t) (h : Doing i A sampled s) : Doing i A sampled t := by
  refine ⟨?_, h.2.same hst⟩
  rw [hst.1]
  exact h.1

lemma sampled_none : Sampled i none s := fun _ h => by cases h

lemma Sampled.goesOn (h : Sampled i sampled s) (hstep : StepOf pool i s t)
    (hafter : activityOf t.2 i = { activityOf s.2 i with running := true }) :
    Sampled i sampled t := by
  intro nowMs hmem
  obtain ⟨hrunning, rfl⟩ := h nowMs hmem
  rw [hafter, Endpoints.elapsedMs, Endpoints.elapsedMs, hstep.instant i hrunning]
  exact ⟨rfl, rfl⟩

lemma Doing.goesOn (hA : Known A) (h : Doing i A sampled s) (hstep : StepOf pool i s t)
    (hafter : activityOf t.2 i = { activityOf s.2 i with running := true }) :
    Doing i A sampled t := by
  refine ⟨?_, h.2.goesOn hstep hafter⟩
  rw [hafter]
  exact hA.runs _ h.1

lemma Brings.atOnce (honce : access.AtOnce) (hA : Known A)
    (h : ∀ x s b t, serve access x s = some (b, t.1) → Doing i A sampled t →
      (activityOf t.2 i).running = true → Secured pool t → B b t) :
    Brings pool i (Doing i A sampled) access B := by
  intro s x b t hsecured hs hrun
  obtain ⟨hserve, hafter, hstep⟩ := watched_run hrun
  rw [honce.after] at hafter
  have hword := (serve_quiet (i := i) honce.quiet hserve).1
  have hsecured' := hsecured.goesOn hstep hword (hA.work _ hs.1) hafter
  refine ⟨hstep.othersActivity, hsecured', h x s.1 b t hserve (hs.goesOn hA hstep hafter) ?_ hsecured'⟩
  rw [hafter]

lemma Known.lasting (hA : Known A) (sampled : Option Nat) : Lasting (watched pool) (Secured pool)
    SameActivity OthersActivity i (Doing i A sampled) :=
  ⟨fun _ _ => Doing.same, fun _ honce => Brings.atOnce honce hA fun _ _ _ _ _ h _ _ => h⟩

lemma Brings.elapsed : Brings pool i (Doing i Ready none) .elapsedMs
    fun nowMs => Doing i Ready (some nowMs) := by
  refine .atOnce trivial known_ready fun x s nowMs ⟨t, g⟩ hserve ht hrunning _ => ⟨ht.1, ?_⟩
  cases hserve
  rintro _ ⟨⟩
  exact ⟨hrunning, rfl⟩

lemma Secured.loaded (h : Secured pool t) (hserve : serve (.load endpoint) x w = some (old, t.1)) :
    old < 2 ^ 64 := by
  obtain ⟨t, g⟩ := t
  cases hserve
  exact h.bounded endpoint

lemma Ready.filter_none (h : Ready a) : a.claim.filter (·.inFlight) = none := by
  rw [Option.filter_eq_none_iff]
  intro claim hclaim
  rw [(h.2 claim hclaim).2]
  exact Bool.noConfusion

lemma Brings.exchangeWeak (hA : Known A) (hended : ∀ a, A a → Ready a) (hnew : new < 2 ^ 64)
    (hshut : ∀ s : Endpoints × Activities, Secured pool s → Doing i A sampled s →
      s.1.now / nanosPerMilli + penaltyMaxMs * 125 / 100 < 2 ^ 50 →
      s.1.word endpoint = old → ∀ j claim, j ≠ i → (activityOf s.2 j).claim = some claim →
      claim.endpoint = endpoint → Shut pool claim.since new) :
    Brings pool i (Doing i A sampled) (.compareExchangeWeak endpoint old new) fun
      | .ok _ => Doing i Ready none
      | .error actual => fun t => actual < 2 ^ 64 ∧ Doing i A sampled t := by
  intro s x b t hsecured hs hrun
  obtain ⟨hserve, hafter, hstep⟩ := watched_run hrun
  refine ⟨hstep.othersActivity, ?_⟩
  rcases exchange_cases (Option.some.inj hserve) with ⟨rfl, hold, hword⟩ | ⟨rfl, hword⟩
  · have hready : activityOf t.2 i = { activityOf s.2 i with running := true, claim := none } := by
      rw [hafter, Activity.after, (hended _ hs.1).filter_none]
    have hera : s.1.now / nanosPerMilli + penaltyMaxMs * 125 / 100 < 2 ^ 50 :=
      Nat.lt_of_le_of_lt (Nat.add_le_add_right (Nat.div_le_div_right hstep.now_le) _) hstep.era
    have hword' : t.1.word = Function.update s.1.word endpoint new := hword
    refine ⟨hsecured.step hstep ?_ ?_ ?_, ?_, sampled_none⟩
    · exact hsecured.bounded_update hword' hnew
    · intro j claim hj hclaim
      rw [hword']
      by_cases hee : claim.endpoint = endpoint
      · rw [hee, Function.update_self]
        exact hshut s hsecured hs hera hold j claim hj hclaim hee
      · rw [Function.update_of_ne hee]
        exact (hsecured.claims j claim hclaim).shut
    · intro claim hclaim
      rw [hready] at hclaim
      cases hclaim
    · rw [hready]
      exact ⟨(hA.work _ hs.1).1, fun claim hclaim => by cases hclaim⟩
  · have hafter' : activityOf t.2 i = { activityOf s.2 i with running := true } := hafter
    exact ⟨hsecured.goesOn hstep hword (hA.work _ hs.1) hafter', hsecured.bounded endpoint,
      hs.goesOn hA hstep hafter'⟩

lemma Secured.unclaimed (h : Secured pool s)
    (hnow : nowMs = s.1.elapsedMs) (hstate : (unpack (s.1.word endpoint)).state = .penalized)
    (hpassed : (unpack (s.1.word endpoint)).deadlinePassed nowMs = true)
    (hclaim : (activityOf s.2 j).claim = some claim) : claim.endpoint ≠ endpoint := by
  rintro rfl
  have hok := h.claims j claim hclaim
  have hshut := hok.shut hstate
  have hlate := hok.now_le
  rw [Word.deadlinePassed, decide_eq_true_eq, hnow, Endpoints.elapsedMs] at hpassed
  have hms : s.1.now / nanosPerMilli ≤
      claim.since / nanosPerMilli + attemptLegs * pool.timeoutMs := by
    calc s.1.now / nanosPerMilli
        ≤ (claim.since + attemptLegs * pool.timeoutMs * nanosPerMilli) / nanosPerMilli :=
          Nat.div_le_div_right hlate
      _ = claim.since / nanosPerMilli + attemptLegs * pool.timeoutMs :=
          Nat.add_mul_div_right _ _ (by decide)
  omega

lemma Brings.claim {endpoint old nowMs round failures timestamp : Nat}
    (hstate : (unpack old).state = .penalized) (hpassed : (unpack old).deadlinePassed nowMs = true) :
    Brings pool i (Doing i Ready (some nowMs))
      (.compareExchange endpoint old (pack .probing round failures timestamp)) fun
      | .ok _ => Doing i (Claimed endpoint) none
      | .error _ => Doing i Ready (some nowMs) := by
  intro s x b t hsecured hs hrun
  obtain ⟨hserve, hafter, hstep⟩ := watched_run hrun
  refine ⟨hstep.othersActivity, ?_⟩
  rcases exchange_cases (Option.some.inj hserve) with ⟨rfl, hold, hword⟩ | ⟨rfl, hword⟩
  · have hclaimed : activityOf t.2 i = { activityOf s.2 i with
        running := true, claim := some ⟨endpoint, t.1.now, true⟩ } := by
      rw [hafter, Activity.after, if_pos (probing_pack ..)]
    have hword' : t.1.word = Function.update s.1.word endpoint
      (pack .probing round failures timestamp) := hword
    have hfree : ∀ j claim, (activityOf s.2 j).claim = some claim → claim.endpoint ≠ endpoint := by
      intro j claim hclaim
      refine hsecured.unclaimed (hs.2 nowMs rfl).2 ?_ ?_ hclaim
      · rw [hold]
        exact hstate
      · rw [hold]
        exact hpassed
    refine ⟨hsecured.step hstep ?_ ?_ ?_, ?_, sampled_none⟩
    · exact hsecured.bounded_update hword' (pack_lt _ _ _ _)
    · intro j claim _ hclaim
      rw [hword', Function.update_of_ne (hfree j claim hclaim)]
      exact (hsecured.claims j claim hclaim).shut
    · intro claim hclaim
      rw [hclaimed] at hclaim ⊢
      cases hclaim
      refine ⟨⟨Nat.le_refl _, Nat.le_add_right _ _, .inl rfl, fun _ _ => rfl, ?_⟩,
        fun j other _ hother => hfree j other hother⟩
      intro hpenalized
      rw [hword', Function.update_self, unpack_pack] at hpenalized
      cases hpenalized
    · rw [hclaimed]
      exact ⟨hs.1.1, rfl, _, rfl⟩
  · have hafter' : activityOf t.2 i = { activityOf s.2 i with running := true } := hafter
    exact ⟨hsecured.goesOn hstep hword (known_ready.work _ hs.1) hafter',
      hs.goesOn known_ready hstep hafter'⟩

variable {Q : α → Endpoints × Activities → Prop}

/-- What a query does to the claims. -/
abbrev Minding (pool : UpstreamPool) (i : Nat) (Q : α → Endpoints × Activities → Prop) :
    Prog HealthAccess α → Endpoints × Activities → Prop :=
  Holds (watched pool) (Secured pool) SameActivity OthersActivity i Q

lemma Minding.attempt (hwork : AtWork (activityOf s.2 i))
    (hnext : ∀ attempt t, activityOf t.2 i = ⟨true, none, ((activityOf s.2 i).claim.filter
      (·.inFlight)).map fun claim => { claim with inFlight := false }⟩ →
      Minding pool i Q (next attempt) t) :
    Minding pool i Q (.act (.send endpoint) fun _ => .act .await next) s := by
  intro s₁ hrely hsecured x b t hrun
  obtain ⟨hserve, hafter, hstep⟩ := watched_run hrun
  rw [← hrely.1] at hwork
  have hword : t.1.word = s₁.1.word := 
    (serve_quiet (i := i) (by trivial) hserve).1
  have hafter : activityOf t.2 i =
    ⟨false, some t.1.now, (activityOf s₁.2 i).claim.filter (·.inFlight)⟩ := hafter
  refine ⟨hstep.othersActivity, hsecured.still hstep hword fun claim hclaim => ?_, ?_⟩
  · -- the probe waits since it was claimed
    rw [hafter] at hclaim ⊢
    obtain ⟨hclaim, hflight⟩ := Option.filter_eq_some_iff.mp hclaim
    have hrunning := hwork.2 claim hclaim
    have hok := hsecured.claims i claim hclaim
    have hnow := hstep.instant i hrunning
    have hsince := hok.starting hflight hrunning
    refine ⟨⟨?_, ?_, .inr ⟨?_, hflight⟩, fun _ h => Bool.noConfusion h, ?_⟩,
      fun j other hj hother heq => hj (hsecured.one j i other claim hother hclaim heq)⟩
    · rw [hnow]
      exact hok.since_le
    · rw [hnow]
      exact hok.now_le
    · rw [hnow, hsince]
    · rw [hword]
      exact hok.shut
  · intro s₂ hrely₂ hsecured x b u hrun
    obtain ⟨hserve, hafter', hstep⟩ := watched_run hrun
    have hword : u.1.word = s₂.1.word := (serve_quiet (i := i) (by trivial) hserve).1
    rw [hrely₂.1, hafter, hrely.1] at hafter'
    refine ⟨hstep.othersActivity, hsecured.still hstep hword fun claim hclaim => ?_,
      hnext b u hafter'⟩
    rw [hafter'] at hclaim ⊢
    obtain ⟨old, hold, rfl⟩ := Option.map_eq_some_iff.mp hclaim
    have hold : (activityOf s₂.2 i).claim = some old := by
      rw [hrely₂.1, hafter, hrely.1]
      exact hold
    have hok := hsecured.claims i old hold
    have hwaiting : (activityOf s₂.2 i).waiting = some old.since := by
      refine (hok.placed.resolve_left fun hrunning => ?_).1
      rw [hrely₂.1, hafter] at hrunning
      cases hrunning
    refine ⟨⟨hok.since_le.trans hstep.now_le, hstep.within i _ hwaiting, .inl rfl,
      fun h => Bool.noConfusion h, ?_⟩,
      fun j other hj hother heq => hj (hsecured.one j i other old hother hold heq)⟩
    rw [hword]
    exact hok.shut

lemma Minding.finish (hnext : ∀ t, activityOf t.2 i = .idle → Minding pool i Q (next ()) t) :
    Minding pool i Q (.act .finish next) s := by
  intro s' _ hsecured x b t hrun
  obtain ⟨hserve, hafter, hstep⟩ := watched_run hrun
  have hword : t.1.word = s'.1.word := (serve_quiet (i := i) (by trivial) hserve).1
  refine ⟨hstep.othersActivity, hsecured.still hstep hword fun claim hclaim => ?_, hnext t hafter⟩
  rw [hafter] at hclaim
  cases hclaim

end Rules

section Queries

variable {pool : UpstreamPool} {i : Nat} {s : Endpoints × Activities} {sampled : Option Nat}

lemma recorded_shut (hold : old < 2 ^ 64)
    (hnext : Follows pool.policy old outcome sampled (.store new closedRun penaltyApplied))
    (hsecured : Secured pool s) (hsampled : Sampled i sampled s)
    (hera : s.1.now / nanosPerMilli + penaltyMaxMs * 125 / 100 < 2 ^ 50)
    (hword : s.1.word endpoint = old)
    (hclaim : (activityOf s.2 j).claim = some claim) (hendpoint : claim.endpoint = endpoint) :
    Shut pool claim.since new := by
  have hok := hsecured.claims j claim hclaim
  have hms : s.1.elapsedMs = s.1.now / nanosPerMilli := by
    rw [Endpoints.elapsedMs, u64Max]
    omega
  have hshut : Shut pool claim.since old := by
    rw [← hword, ← hendpoint]
    exact hok.shut
  have hsince : claim.since / nanosPerMilli ≤ s.1.elapsedMs := by
    rw [hms]
    exact Nat.div_le_div_right hok.since_le
  exact nextWord_shut pool hold outcome (hms ▸ hera) hsince hshut
    (hnext _ fun n hn => (hsampled n hn).2)

lemma Brings.stores (hold : old < 2 ^ 64)
    (hnext : Follows pool.policy old outcome sampled (.store new closedRun penaltyApplied)) :
    Brings pool i (Doing i Ready sampled) (.compareExchangeWeak endpoint old new) fun
      | .ok _ => Doing i Ready none
      | .error actual => fun t => actual < 2 ^ 64 ∧ Doing i Ready sampled t := by
  have hlt : new < 2 ^ 64 := by
    obtain ⟨state, round, failures, timestamp, -, rfl⟩ := hnext.leaves_probing
    exact pack_lt _ _ _ _
  refine .exchangeWeak known_ready (fun _ h => h) hlt fun s hsecured hs hera hword j claim _ hclaim => ?_
  exact recorded_shut hold hnext hsecured hs.2 hera hword hclaim

/-- The probe of an endpoint whose attempt has ended is the only one of it. -/
lemma Brings.restores {round : Nat} : Brings pool i (Doing i (Ended endpoint) none)
    (.compareExchangeWeak endpoint old (pack .penalized round failures timestamp)) fun
      | .ok _ => Doing i Ready none
      | .error actual => fun t => actual < 2 ^ 64 ∧ Doing i (Ended endpoint) none t := by
  refine .exchangeWeak (known_ended endpoint) (fun _ h => h.ready) (pack_lt _ _ _ _) ?_
  intro s hsecured hs _ _ j claim hj hclaim hendpoint
  obtain ⟨⟨-, -, since, hown⟩, -⟩ := hs
  exact absurd (hsecured.one j i claim _ hclaim hown hendpoint) hj

/-- What is left of a claim when the attempt has ended. -/
lemma Ready.tried (h : Ready a) : Ready ⟨true, none, (a.claim.filter (·.inFlight)).map fun claim =>
    { claim with inFlight := false }⟩ := by
  rw [h.filter_none]
  exact ⟨rfl, fun _ h => by cases h⟩

lemma Claimed.tried (h : Claimed endpoint a) : Ended endpoint ⟨true, none,
    (a.claim.filter (·.inFlight)).map fun claim => { claim with inFlight := false }⟩ := by
  obtain ⟨-, -, since, hclaim⟩ := h
  rw [hclaim]
  exact ⟨rfl, rfl, since, rfl⟩

/-- What a query is doing at each of its stages. -/
def doingStages (pool : UpstreamPool) (i : Nat) :
    Stages (Endpoints × Activities) pool.policy i where
  M := watched pool
  inv := Secured pool
  rely := SameActivity
  guar := OthersActivity
  stable := stable_sameActivity
  free := Doing i Ready
  reading _ old sampled s := old < 2 ^ 64 ∧ Doing i Ready sampled s
  picked endpoint := Doing i (Claimed endpoint) none
  held guard := Doing i (Claimed guard.endpoint) none
  tried guard := Doing i (Ended guard.endpoint) none
  lasting_free := known_ready.lasting
  stable_reading _ _ _ _ _ hst h := ⟨h.1, h.2.same hst⟩
  lasting_picked endpoint := (known_claimed endpoint).lasting none
  stable_held _ _ _ := Doing.same
  stable_tried _ _ _ := Doing.same
  forget h := ⟨h.1, sampled_none⟩
  sample := Brings.elapsed
  sample_reading s x nowMs t hinv hs hrun :=
    have ⟨hguar, hinv', ht⟩ := Brings.elapsed s x nowMs t hinv hs.2 hrun
    ⟨hguar, hinv', hs.1, ht⟩
  claims := Brings.claim
  guards := Brings.atOnce trivial (known_claimed _) fun _ _ _ _ _ h _ _ => h
  attempts rollback _ hs hnext := by
    cases rollback with
    | none =>
      refine Minding.attempt (known_ready.work _ hs.1) fun attempt t hafter => hnext attempt t ?_
      exact ⟨hafter ▸ hs.1.tried, sampled_none⟩
    | some guard =>
      refine Minding.attempt ((known_claimed _).work _ hs.1) fun attempt t hafter => hnext attempt t ?_
      exact ⟨hafter ▸ hs.1.tried, sampled_none⟩
  reads rollback _ := by
    cases rollback with
    | none =>
      refine Brings.atOnce trivial known_ready fun x s old t hserve ht _ hsecured => ⟨?_, ht⟩
      exact hsecured.loaded hserve
    | some guard =>
      refine Brings.atOnce trivial (known_ended _) fun x s old t hserve ht _ hsecured => ⟨?_, ?_⟩
      · exact hsecured.loaded hserve
      · exact ⟨ht.1.ready, sampled_none⟩
  stores hnext s x b t hinv hs := Brings.stores hs.1 hnext s x b t hinv hs.2
  keeps _ h := ⟨h.2.1, sampled_none⟩
  restores := by
    refine Leads.mono Brings.restores fun exchanged t h => ?_
    cases exchanged with
    | ok _ => exact h
    | error actual =>
      dsimp only
      split
      · exact h.2
      · exact ⟨h.2.1.ready, sampled_none⟩
  disarms _ h := ⟨h.1.ready, sampled_none⟩

lemma Query.minding (query : Query) (hs : Ready (activityOf s.2 i)) :
    Minding pool i (fun _ _ => True) (query.prog pool) s := by
  refine Holds.bind stable_sameActivity ((Stages.walkFrom pool (S := doingStages pool i)
    _ _ _ _ _ _ ⟨hs, sampled_none⟩).mono fun _ t _ => ?_)
  exact Minding.finish fun _ _ _ _ => trivial

end Queries

section Alone

lemma Secured.oneProbe (h : Secured pool s) : OneProbe s.2 := by
  have hclaim : ∀ {i e}, InFlight s.2 i e →
      ∃ claim, (activityOf s.2 i).claim = some claim ∧ claim.endpoint = e := by
    intro i e hi
    obtain ⟨claim, hclaim, hflight⟩ := (Option.any_eq_true _ _).mp hi
    rw [Bool.and_eq_true, beq_iff_eq] at hflight
    exact ⟨claim, hclaim, hflight.2⟩
  intro i j e hi hj
  obtain ⟨claim, hclaim₁, he⟩ := hclaim hi
  obtain ⟨other, hclaim₂, he'⟩ := hclaim hj
  exact h.one i j claim other hclaim₁ hclaim₂ (he.trans he'.symm)

variable {pool : UpstreamPool} {queries : List Query} {labels : List (Label HealthAccess Endpoints)}
  {c : Pool HealthAccess Endpoints Walked}

/-- **One probe at a time.** In every run of queries on a new pool in which time
passes only while no query runs, no attempt outlasts its bound, and time stamps
fit their 50 bits: before each step and at the end, at most one probe of each
endpoint is in flight. -/
theorem one_probe_in_flight
    (hrun : Pool.Run machine ⟨Endpoints.new, queries.map (Query.prog pool)⟩ labels c)
    (hinstant : ∀ m ∈ annotate noteActivity ∅ labels, Instant m)
    (hwithin : ∀ m ∈ annotate noteActivity ∅ labels, WithinBound pool.timeoutMs m)
    (hera : ∀ m ∈ annotate noteActivity ∅ labels, InEra m) :
    (∀ m ∈ annotate noteActivity ∅ labels, OneProbe m.before.2) ∧
      OneProbe (recorded noteActivity ∅ labels) := by
  have hghost : Pool.Run (machine.ghost noteActivity) _ _ _ := hrun.ghost ∅
  have hwatched : Pool.Run (watched pool) _ _ _ := hghost.restrict (C := Orderly pool.timeoutMs)
    fun m hm => ⟨hinstant m hm, hwithin m hm, hera m hm⟩
  have hstart : Secured pool (Endpoints.new, ∅) := by
    refine ⟨fun _ => Nat.two_pow_pos 64, fun i claim hclaim => ?_, fun i j claim other hclaim => ?_⟩
    all_goals exact Option.noConfusion rfl (heq_of_eq (show none = some claim from hclaim))
  obtain ⟨hend, hsteps, -⟩ := hwatched.holds (Q := fun _ _ _ => True) stable_sameActivity
    (fun i j hij s t _ (hothers : OthersActivity i s t) => hothers j hij.symm) hstart fun i p hp => by
      obtain ⟨query, -, rfl⟩ := List.mem_map.mp (List.mem_of_getElem? hp)
      exact query.minding ⟨rfl, fun _ h => by cases h⟩
  exact ⟨fun m hm => (hsteps m hm).1.oneProbe, hend.oneProbe⟩

theorem one_probe_in_flight_sample :
    ∃ labels c, Pool.Run machine ⟨Endpoints.new,
        [Query.mk .record 2, Query.mk .record 2].map (Query.prog samplePool)⟩ labels c ∧
      InFlight (recorded noteActivity ∅ labels) 1 0 ∧
      OneProbe (recorded noteActivity ∅ labels) := by
  refine Pool.exists_run claimSchedule (fun labels _ => InFlight (recorded noteActivity ∅ labels) 1 0 ∧
    ∀ m ∈ annotate noteActivity ∅ labels, Orderly 1 m) (by decide +kernel) ?_
  rintro labels c hrun ⟨hflight, horderly⟩
  exact ⟨hflight, (one_probe_in_flight hrun (fun m hm => (horderly m hm).1)
    (fun m hm => (horderly m hm).2.1) fun m hm => (horderly m hm).2.2).2⟩

/-- When the clock has 50 bits, two attempts are sent; the second fails, the
endpoint is penalised until a time long past, and a probe is claimed. Then the
first attempt fails, and another probe is claimed. -/
def lateSchedule : List (Nat × Chance) :=
  [(0, ⟨2 ^ 50 * nanosPerMilli, false, none⟩), (0, .plain), (0, .plain)] ++
    List.replicate 3 (1, .plain) ++ [(1, .refused)] ++ List.replicate 3 (1, .plain) ++
    List.replicate 7 (2, .plain) ++ [(0, .refused)] ++ List.replicate 3 (0, .plain) ++
    List.replicate 7 (3, .plain)

/-- **Two probes at a time**, 2 to the 50 milliseconds after the pool was made. -/
theorem two_probes_in_flight :
    ∃ labels c, Pool.Run machine ⟨Endpoints.new,
        (List.replicate 4 (Query.mk .record 2)).map (Query.prog samplePool)⟩ labels c ∧
      (∀ m ∈ annotate noteActivity ∅ labels, Instant m ∧ WithinBound samplePool.timeoutMs m) ∧
      InFlight (recorded noteActivity ∅ labels) 2 0 ∧
      InFlight (recorded noteActivity ∅ labels) 3 0 := by
  exact Pool.exists_run lateSchedule _ (by decide +kernel) fun _ _ _ h => h

end Alone

end FastAdHunter.Dns.Health
