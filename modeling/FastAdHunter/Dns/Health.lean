import FastAdHunter.Dns.Pipeline
import FastAdHunter.Lib.Interference

/-!
# The health of the upstreams

Each upstream has one packed word: a state, the round of its penalties, its open
run of failures and a time stamp. Outcomes move the word by compare-and-exchange;
a query that meets a penalised upstream whose deadline has passed may claim it as
a probe, and gives the claim back when it is dropped at its await. The queries are
programs over the words, the clock and the attempts; whether a weak exchange fails
for no reason, how long an await takes and what comes of it is the environment's
choice.
-/

namespace FastAdHunter.Dns.Health

open Lib

inductive State where
  | healthy
  | penalized
  | probing
  deriving DecidableEq

def State.code : State → Nat
  | .healthy => 0
  | .penalized => 1
  | .probing => 2

structure Word where
  state : State
  penaltyRound : Nat
  consecutiveFailures : Nat
  timestampMs : Nat
  deriving DecidableEq

/-- The fields side by side, each cut to its width: 2, 4, 8 and 50 bits. -/
def pack (state : State) (penaltyRound consecutiveFailures timestampMs : Nat) : Nat :=
  state.code + penaltyRound % 2 ^ 4 * 2 ^ 2 + consecutiveFailures % 2 ^ 8 * 2 ^ 6 +
    timestampMs % 2 ^ 50 * 2 ^ 14

def unpack (word : Nat) : Word where
  state :=
    match word % 2 ^ 2 with
    | 1 => .penalized
    | 2 => .probing
    | _ => .healthy
  penaltyRound := word / 2 ^ 2 % 2 ^ 4
  consecutiveFailures := word / 2 ^ 6 % 2 ^ 8
  timestampMs := word / 2 ^ 14

def Word.deadlinePassed (w : Word) (nowMs : Nat) : Bool := w.timestampMs ≤ nowMs

lemma pack_mod (state : State) (round failures timestamp : Nat) :
    pack state round failures timestamp % 2 ^ 2 = state.code := by
  have hcode : state.code < 4 := by cases state <;> decide
  unfold pack
  omega

@[simp] lemma unpack_pack (state : State) (round failures timestamp : Nat) :
    unpack (pack state round failures timestamp) =
      ⟨state, round % 2 ^ 4, failures % 2 ^ 8, timestamp % 2 ^ 50⟩ := by
  have hcode : state.code < 4 := by cases state <;> decide
  have hround : pack state round failures timestamp / 2 ^ 2 % 2 ^ 4 = round % 2 ^ 4 := by
    unfold pack
    omega
  have hfailures : pack state round failures timestamp / 2 ^ 6 % 2 ^ 8 = failures % 2 ^ 8 := by
    unfold pack
    omega
  have htimestamp : pack state round failures timestamp / 2 ^ 14 = timestamp % 2 ^ 50 := by
    unfold pack
    omega
  rw [unpack, pack_mod, hround, hfailures, htimestamp]
  cases state <;> rfl

section Penalties

def attemptLegs : Nat := 3

def penaltyMaxMs : Nat := 300000

def penaltyBaseFactor : Nat := 10

/-- The largest value of the machine integers the code computes with. -/
def u64Max : Nat := 2 ^ 64 - 1

structure Policy where
  penaltyFailures : Nat
  penaltyBaseMs : Nat
  penaltyMaxMs : Nat

def Policy.fromTimeout (timeoutMs penaltyFailures : Nat) : Policy where
  penaltyFailures := penaltyFailures
  penaltyBaseMs := penaltyBaseFactor * (attemptLegs * timeoutMs)
  penaltyMaxMs := Health.penaltyMaxMs

variable (policy : Policy)

/-- Double as often as asked, unless the cap is reached before. -/
def doubled : Nat → Nat → Nat
  | 0, nominal => nominal
  | times + 1, nominal =>
    if policy.penaltyMaxMs ≤ nominal then nominal
    else doubled times (min (nominal * 2) u64Max)

def nominalPenalty (round : Nat) : Nat :=
  min (doubled policy (round - 1) policy.penaltyBaseMs) policy.penaltyMaxMs

/-- The nominal penalty, spread by a quarter either way with the low bits of the
clock. -/
def penalty (round nowMs : Nat) : Nat :=
  nominalPenalty policy round * (75 + nowMs % 256 * 50 / 255) / 100

def nextRound (w : Word) (nowMs : Nat) : Nat :=
  if w.state = .healthy ∧ policy.penaltyMaxMs ≤ nowMs - w.timestampMs then 1
  else min (min (w.penaltyRound + 1) 255) 15

lemma le_doubled (times : Nat) (h : nominal ≤ u64Max) :
    nominal ≤ doubled policy times nominal := by
  induction times generalizing nominal with
  | zero => exact Nat.le_refl _
  | succ times ih =>
    rw [doubled]
    split
    · exact Nat.le_refl _
    · have hle : nominal ≤ min (nominal * 2) u64Max := by omega
      exact hle.trans (ih (Nat.min_le_right _ _))

lemma nominalPenalty_ge (round : Nat) (hbase : policy.penaltyBaseMs ≤ u64Max)
    (hmax : policy.penaltyBaseMs ≤ policy.penaltyMaxMs) :
    policy.penaltyBaseMs ≤ nominalPenalty policy round :=
  Nat.le_min.mpr ⟨le_doubled policy _ hbase, hmax⟩

lemma penalty_ge (round nowMs : Nat) (hbase : policy.penaltyBaseMs ≤ u64Max)
    (hmax : policy.penaltyBaseMs ≤ policy.penaltyMaxMs) :
    policy.penaltyBaseMs * 75 / 100 ≤ penalty policy round nowMs := by
  refine Nat.div_le_div_right ?_
  exact Nat.mul_le_mul (nominalPenalty_ge policy round hbase hmax) (Nat.le_add_right _ _)

lemma penalty_le (round nowMs : Nat) :
    penalty policy round nowMs ≤ policy.penaltyMaxMs * 125 / 100 := by
  refine Nat.div_le_div_right (Nat.mul_le_mul (Nat.min_le_right _ _) ?_)
  omega

end Penalties

section Transitions

inductive Outcome where
  | success
  | hardFailure
  | pathFailure
  deriving DecidableEq

inductive TransportKind where
  | plain
  | encrypted
  deriving DecidableEq

/-- The kinds of failure that are told apart. -/
inductive ErrorKind where
  | connectionRefused
  | networkUnreachable
  | hostUnreachable
  | invalidData
  | other
  deriving DecidableEq

def classify (transport : TransportKind) : Except ErrorKind Message → Outcome
  | .ok _ => .success
  | .error .connectionRefused => .pathFailure
  | .error .networkUnreachable => .pathFailure
  | .error .hostUnreachable => .pathFailure
  | .error .invalidData =>
    match transport with
    | .encrypted => .pathFailure
    | .plain => .hardFailure
  | .error .other => .hardFailure

inductive Transition where
  | noChange
  | store (word : Nat) (closedRun : Option Nat) (penaltyApplied : Option Nat)
  deriving DecidableEq

/-- A transition that may need the clock. -/
inductive LazyTransition where
  | ready (transition : Transition)
  | clocked (transition : Nat → Transition)

variable (policy : Policy)

def penalize (w : Word) (consecutiveFailures nowMs : Nat) : Transition :=
  let round := nextRound policy w nowMs
  let deadline := min (nowMs + penalty policy round nowMs) u64Max
  .store (pack .penalized round consecutiveFailures deadline) none
    (some (nominalPenalty policy round))

/-- What an outcome makes of a word; the clock is read where it is needed. -/
def nextWordLazy (word : Nat) (outcome : Outcome) : LazyTransition :=
  let w := unpack word
  let cf := min (w.consecutiveFailures + 1) 255
  match w.state, outcome with
  | .healthy, .success =>
    if w.consecutiveFailures = 0 then .ready .noChange
    else .ready (.store (pack .healthy w.penaltyRound 0 w.timestampMs)
      (some w.consecutiveFailures) none)
  | .penalized, .success | .probing, .success =>
    .clocked fun nowMs => .store (pack .healthy w.penaltyRound 0 nowMs)
      (if 0 < w.consecutiveFailures then some w.consecutiveFailures else none) none
  | .healthy, .hardFailure =>
    if policy.penaltyFailures ≤ cf then .clocked (penalize policy w cf)
    else .ready (.store (pack .healthy w.penaltyRound cf w.timestampMs) none none)
  | .healthy, .pathFailure => .clocked (penalize policy w cf)
  | .penalized, .hardFailure | .penalized, .pathFailure =>
    if cf = w.consecutiveFailures then .ready .noChange
    else .ready (.store (pack .penalized w.penaltyRound cf w.timestampMs) none none)
  | .probing, .hardFailure | .probing, .pathFailure => .clocked (penalize policy w cf)

def LazyTransition.atTime (nowMs : Nat) : LazyTransition → Transition
  | .ready transition => transition
  | .clocked transition => transition nowMs

def nextWord (word : Nat) (outcome : Outcome) (nowMs : Nat) : Transition :=
  (nextWordLazy policy word outcome).atTime nowMs

/-- A word is a probe's. -/
def Probing (word : Nat) : Prop := (unpack word).state = .probing

instance (word : Nat) : Decidable (Probing word) := inferInstanceAs (Decidable (_ = _))

lemma not_probing_pack (h : state ≠ .probing)
    (round failures timestamp : Nat) : ¬ Probing (pack state round failures timestamp) := by
  rw [Probing, unpack_pack]
  exact h

lemma probing_pack (round failures timestamp : Nat) :
    Probing (pack .probing round failures timestamp) := by
  rw [Probing, unpack_pack]

/-- What is said of a transition, whenever the clock is read. -/
def LazyTransition.Always (P : Transition → Prop) (lazily : LazyTransition) : Prop :=
  ∀ nowMs, P (lazily.atTime nowMs)

/-- An outcome leaves no word as a probe's, and makes none one. -/
def Transition.LeavesProbing (word : Nat) : Transition → Prop
  | .noChange => ¬ Probing word
  | .store new _ _ => ∃ state round failures timestamp, state ≠ .probing ∧
      new = pack state round failures timestamp

/-- What an outcome can make of a word. -/
inductive Moves (w : Word) (outcome : Outcome) (nowMs : Nat) : Transition → Prop
  | idle : w.state = .healthy → outcome = .success → w.consecutiveFailures = 0 →
      Moves w outcome nowMs .noChange
  | saturated : w.state = .penalized → outcome ≠ .success →
      min (w.consecutiveFailures + 1) 255 = w.consecutiveFailures → Moves w outcome nowMs .noChange
  | closes : w.state = .healthy → outcome = .success → Moves w outcome nowMs
      (.store (pack .healthy w.penaltyRound 0 w.timestampMs) (some w.consecutiveFailures) none)
  | recovers : w.state ≠ .healthy → outcome = .success → Moves w outcome nowMs
      (.store (pack .healthy w.penaltyRound 0 nowMs)
        (if 0 < w.consecutiveFailures then some w.consecutiveFailures else none) none)
  | counts (state : State) : w.state = state → state ≠ .probing → outcome ≠ .success →
      Moves w outcome nowMs (.store
        (pack state w.penaltyRound (min (w.consecutiveFailures + 1) 255) w.timestampMs) none none)
  | penalizes : w.state ≠ .penalized → outcome ≠ .success → Moves w outcome nowMs
      (penalize policy w (min (w.consecutiveFailures + 1) 255) nowMs)

lemma nextWord_moves (word : Nat) (outcome : Outcome) (nowMs : Nat) :
    Moves policy (unpack word) outcome nowMs (nextWord policy word outcome nowMs) := by
  unfold nextWord nextWordLazy
  dsimp only
  split
  next hstate =>
    split
    next hzero => exact .idle hstate rfl hzero
    · exact .closes hstate rfl
  next hstate => exact .recovers (by simp [hstate]) rfl
  next hstate => exact .recovers (by simp [hstate]) rfl
  next hstate =>
    split
    · exact .penalizes (by simp [hstate]) (by simp)
    · exact .counts _ hstate (by simp) (by simp)
  next hstate => exact .penalizes (by simp [hstate]) (by simp)
  next hstate =>
    split
    next hfull => exact .saturated hstate (by simp) hfull
    · exact .counts _ hstate (by simp) (by simp)
  next hstate =>
    split
    next hfull => exact .saturated hstate (by simp) hfull
    · exact .counts _ hstate (by simp) (by simp)
  next hstate => exact .penalizes (by simp [hstate]) (by simp)
  next hstate => exact .penalizes (by simp [hstate]) (by simp)

lemma nextWordLazy_leaves_probing (word : Nat) (outcome : Outcome) :
    (nextWordLazy policy word outcome).Always (Transition.LeavesProbing word) := by
  intro nowMs
  have hmoves := nextWord_moves policy word outcome nowMs
  change Transition.LeavesProbing word (nextWord policy word outcome nowMs)
  generalize nextWord policy word outcome nowMs = transition at hmoves ⊢
  cases hmoves with
  | idle hstate | saturated hstate => exact fun h => State.noConfusion (hstate.symm.trans h)
  | counts state _ hstate => exact ⟨state, _, _, _, hstate, rfl⟩
  | penalizes => exact ⟨.penalized, _, _, _, State.noConfusion, rfl⟩
  | _ => exact ⟨.healthy, _, _, _, State.noConfusion, rfl⟩

end Transitions

inductive Counter where
  | attempts
  | failures
  | penalties
  | probes
  | probeSuccesses
  | penalizedMsTotal
  | runBucket (bucket : Nat)
  deriving DecidableEq

/-- The atomic accesses of a query. An attempt is sent off, and its end awaited;
a query that is dropped while it waits gets no end. The last access hands the
result over; the one without results is where a loop goes on beyond its bound. -/
inductive HealthAccess : Type → Type where
  | load (endpoint : Nat) : HealthAccess Nat
  | compareExchange (endpoint current new : Nat) : HealthAccess (Except Nat Nat)
  | compareExchangeWeak (endpoint current new : Nat) : HealthAccess (Except Nat Nat)
  | elapsedMs : HealthAccess Nat
  | fetchAdd (endpoint : Nat) (counter : Counter) (amount : Nat) : HealthAccess Unit
  | send (endpoint : Nat) : HealthAccess Unit
  | await : HealthAccess (Option (Except ErrorKind Message))
  | finish : HealthAccess Unit
  | goOn : HealthAccess Empty

/-- The words and the counters of the endpoints, and the nanoseconds since the
epoch of the pool. -/
structure Endpoints where
  word : Nat → Nat
  counters : Nat → Counter → Nat
  now : Nat

def Endpoints.new : Endpoints where
  word := fun _ => 0
  counters := fun _ _ => 0
  now := 0

/-- What the environment chooses: the time until the access, whether a weak
exchange fails for no reason, and how an attempt ends. -/
structure Chance where
  elapsed : Nat
  spurious : Bool
  attempt : Option (Except ErrorKind Message)

def nanosPerMilli : Nat := 1000000

def Endpoints.elapsedMs (s : Endpoints) : Nat := min (s.now / nanosPerMilli) u64Max

/-- An exchange, which may be told to fail. -/
def Endpoints.exchange (s : Endpoints) (endpoint current new : Nat) (fails : Bool) :
    Except Nat Nat × Endpoints :=
  if s.word endpoint = current ∧ fails = false then
    (.ok current, { s with word := Function.update s.word endpoint new })
  else (.error (s.word endpoint), s)

def Endpoints.fetchAdd (s : Endpoints) (endpoint : Nat) (counter : Counter) (amount : Nat) :
    Endpoints :=
  let own := s.counters endpoint
  let own' := Function.update own counter (own counter + amount)
  { s with counters := Function.update s.counters endpoint own' }

def serve {β : Type} (access : HealthAccess β) (x : Chance) (s : Endpoints) :
    Option (β × Endpoints) :=
  let s : Endpoints := { s with now := s.now + x.elapsed }
  match access with
  | .load endpoint => some (s.word endpoint, s)
  | .compareExchange endpoint current new => some (s.exchange endpoint current new false)
  | .compareExchangeWeak endpoint current new => some (s.exchange endpoint current new x.spurious)
  | .elapsedMs => some (s.elapsedMs, s)
  | .fetchAdd endpoint counter amount => some ((), s.fetchAdd endpoint counter amount)
  | .send _ => some ((), s)
  | .await => some (x.attempt, s)
  | .finish => some ((), s)
  | .goOn => none

def machine : Machine HealthAccess Endpoints Chance where
  run access _ x s := serve access x s

section Recording

variable (policy : Policy)

/-- A clock that is read once. -/
def lazyNow : Option Nat → Prog HealthAccess Nat
  | some nowMs => pure nowMs
  | none => HealthAccess.elapsedMs

/-- Compute the next word from the old one and exchange them, until that succeeds
or there is nothing to change. -/
def recordFrom (endpoint : Nat) (outcome : Outcome) :
    Nat → Nat → Option Nat → Prog HealthAccess Transition
  | 0, _, _ => .act .goOn Empty.elim
  | fuel + 1, old, sampled => do
    let (transition, sampled) ← match nextWordLazy policy old outcome with
      | .ready transition => pure (transition, sampled)
      | .clocked transition => do
        let nowMs ← lazyNow sampled
        pure (transition nowMs, some nowMs)
    match transition with
    | .noChange => pure .noChange
    | .store word closedRun penaltyApplied => do
      match ← HealthAccess.compareExchangeWeak endpoint old word with
      | .ok _ => pure (.store word closedRun penaltyApplied)
      | .error current => recordFrom endpoint outcome fuel current sampled

def record (fuel endpoint : Nat) (outcome : Outcome) : Prog HealthAccess Transition := do
  let old ← HealthAccess.load endpoint
  recordFrom policy endpoint outcome fuel old none

end Recording

inductive Selected where
  | healthy
  | probe
  | forced
  deriving DecidableEq

structure Candidate where
  id : Nat
  selected : Selected
  deriving DecidableEq

/-- The endpoint with the earliest time stamp so far. -/
def keepEarliest (id : Nat) (w : Word) : Option (Nat × Nat) → Option (Nat × Nat)
  | none => some (id, w.timestampMs)
  | some (best, earliest) =>
    if w.timestampMs < earliest then some (id, w.timestampMs) else some (best, earliest)

/-- Pass over the endpoints in their order. An endpoint is named by a byte. -/
def selectFrom (claim : Bool) :
    List Nat → Option Nat → Option (Nat × Nat) → Prog HealthAccess (Option Candidate)
  | [], _, forced => pure (forced.map fun best => ⟨best.1, .forced⟩)
  | index :: rest, nowMs, forced => do
    let id := min index 255
    let word ← HealthAccess.load index
    let w := unpack word
    let forced' := keepEarliest id w forced
    match w.state with
    | .healthy => pure (some ⟨id, .healthy⟩)
    | .penalized =>
      if claim then do
        let sampled ← lazyNow nowMs
        if w.deadlinePassed sampled then do
          let probing := pack .probing w.penaltyRound w.consecutiveFailures w.timestampMs
          match ← HealthAccess.compareExchange index word probing with
          | .ok _ => pure (some ⟨id, .probe⟩)
          | .error _ => selectFrom claim rest (some sampled) forced'
        else selectFrom claim rest (some sampled) forced'
      else selectFrom claim rest nowMs forced'
    | .probing => selectFrom claim rest nowMs forced'

def select (servers start : Nat) (claim : Bool) : Prog HealthAccess (Option Candidate) :=
  selectFrom claim (List.range' start (servers - start)) none none

/-- What gives a claim back. -/
structure ProbeGuard where
  endpoint : Nat
  claimed : Nat

def ProbeGuard.new (endpoint : Nat) : Prog HealthAccess ProbeGuard := do
  let claimed ← HealthAccess.load endpoint
  pure ⟨endpoint, claimed⟩

/-- Exchange as long as the word is the claimed one. -/
def restoreFrom (endpoint claimed restored : Nat) : Nat → Nat → Prog HealthAccess Unit
  | 0, _ => .act .goOn Empty.elim
  | fuel + 1, current =>
    if current = claimed then do
      match ← HealthAccess.compareExchangeWeak endpoint current restored with
      | .ok _ => pure ()
      | .error actual => restoreFrom endpoint claimed restored fuel actual
    else pure ()

/-- An armed guard is dropped. -/
def ProbeGuard.drop (fuel : Nat) (guard : ProbeGuard) : Prog HealthAccess Unit :=
  let w := unpack guard.claimed
  if w.state = .probing then
    restoreFrom guard.endpoint guard.claimed
      (pack .penalized w.penaltyRound w.consecutiveFailures w.timestampMs) fuel guard.claimed
  else pure ()

section Walking

inductive HealthMode where
  | record
  | ignore
  deriving DecidableEq

def maxUpstreamServers : Nat := 8

/-- The pool of a validated configuration. -/
structure UpstreamPool where
  servers : List TransportKind
  timeoutMs : Nat
  penaltyFailures : Nat
  servers_nonempty : servers ≠ []
  servers_few : servers.length ≤ maxUpstreamServers
  timeout_range : 1 ≤ timeoutMs ∧ timeoutMs ≤ 10000
  penaltyFailures_range : 1 ≤ penaltyFailures ∧ penaltyFailures ≤ 255

variable (pool : UpstreamPool)

def UpstreamPool.policy : Policy := Policy.fromTimeout pool.timeoutMs pool.penaltyFailures

def runBucket (length : Nat) : Nat := min (max length 1) 4 - 1

def countIf (condition : Bool) (index : Nat) (counter : Counter) : Prog HealthAccess Unit :=
  if condition then HealthAccess.fetchAdd index counter 1 else pure ()

def countRun (index : Nat) : Option Nat → Prog HealthAccess Unit
  | some run => HealthAccess.fetchAdd index (.runBucket (runBucket run)) 1
  | none => pure ()

def countPenalty (index : Nat) : Option Nat → Prog HealthAccess Unit
  | some penalizedMs => do
    HealthAccess.fetchAdd index .penalties 1
    HealthAccess.fetchAdd index .penalizedMsTotal penalizedMs
  | none => pure ()

def recordOutcome (fuel index : Nat) (outcome : Outcome) : Prog HealthAccess Unit := do
  match ← record pool.policy fuel index outcome with
  | .noChange => pure ()
  | .store _ closedRun penaltyApplied => do
    countRun index closedRun
    countPenalty index penaltyApplied

/-- How a walk ends: with an answer, with the last failure, or dropped at an
await. -/
inductive Walked where
  | answered (outcome : ForwardOutcome)
  | failed (lastErr : Option ErrorKind)
  | dropped

def guardFor (index : Nat) (probe : Bool) : Prog HealthAccess (Option ProbeGuard) :=
  if probe then do
    let guard ← ProbeGuard.new index
    pure (some guard)
  else pure none

/-- The query is dropped, and with it the guard it may have. -/
def dropGuard (fuel : Nat) : Option ProbeGuard → Prog HealthAccess Unit
  | some guard => guard.drop fuel
  | none => pure ()

def recordEnd (fuel index : Nat) (recording : Bool) (result : Except ErrorKind Message) :
    Prog HealthAccess Unit :=
  if recording then
    recordOutcome pool fuel index (classify ((pool.servers[index]?).getD .plain) result)
  else pure ()

/-- One upstream after another until one answers. -/
def walkFrom (fuel : Nat) (recording : Bool) :
    Nat → Nat → Bool → Option ErrorKind → Prog HealthAccess Walked
  | 0, _, _, _ => .act .goOn Empty.elim
  | rounds + 1, start, probed, lastErr => do
    match ← select pool.servers.length start (recording && !probed) with
    | none => pure (.failed lastErr)
    | some candidate => do
      let index := candidate.id
      let probe := candidate.selected == .probe
      countIf recording index .attempts
      countIf (recording && probe) index .probes
      let rollback ← guardFor index probe
      HealthAccess.send index
      match ← HealthAccess.await with
      | none => do
        dropGuard fuel rollback
        pure .dropped
      | some result => do
        recordEnd pool fuel index recording result
        match result with
        | .ok response => do
          countIf (recording && probe) index .probeSuccesses
          pure (.answered ⟨response, UInt8.ofNat index⟩)
        | .error err => do
          countIf recording index .failures
          walkFrom fuel recording rounds (index + 1) (probed || probe) (some err)

/-- One pass over the servers takes at most one round for each, and one to find
that none is left. -/
def walkAdaptive (fuel : Nat) (mode : HealthMode) : Prog HealthAccess Walked :=
  walkFrom pool fuel (mode == .record) (pool.servers.length + 1) 0 false none

/-- A query, with a bound on its retries. -/
structure Query where
  mode : HealthMode
  fuel : Nat

def Query.prog (query : Query) : Prog HealthAccess Walked := do
  let walked ← walkAdaptive pool query.fuel query.mode
  HealthAccess.finish
  pure walked

end Walking

end FastAdHunter.Dns.Health
