import FastAdHunter.Dns.Health

/-!
# What outcomes make of an endpoint

The history of one endpoint: outcomes that are recorded, claims of a probe and
claims that are given back, each at its time. Beside the word stands the time
since which the endpoint has been healthy, which the word keeps in its time
stamp as long as the clock fits the 50 bits that the stamp has.
-/

namespace FastAdHunter.Dns.Health

inductive Event where
  | outcome (outcome : Outcome)
  | claim
  | rollback

/-- An endpoint, and since when it has been healthy if it is. -/
structure Endpoint where
  word : Nat
  healthySince : Nat

/-- The word after a transition. -/
def Transition.result (word : Nat) : Transition → Nat
  | .noChange => word
  | .store new _ _ => new

/-- What one event makes of a word. -/
def Event.apply (policy : Policy) (nowMs word : Nat) : Event → Nat
  | .outcome result => (nextWord policy word result nowMs).result word
  | .claim =>
    let w := unpack word
    if w.state = .penalized ∧ w.deadlinePassed nowMs then
      pack .probing w.penaltyRound w.consecutiveFailures w.timestampMs
    else word
  | .rollback =>
    let w := unpack word
    if w.state = .probing then
      pack .penalized w.penaltyRound w.consecutiveFailures w.timestampMs
    else word

/-- One event of a history, at its time. -/
structure Moment where
  before : Endpoint
  nowMs : Nat
  event : Event
  after : Endpoint

def Endpoint.next (policy : Policy) (e : Endpoint) (nowMs : Nat) (event : Event) : Endpoint :=
  let word := event.apply policy nowMs e.word
  ⟨word, if (unpack e.word).state ≠ .healthy ∧ (unpack word).state = .healthy then nowMs
    else e.healthySince⟩

def moments (policy : Policy) : Endpoint → List (Nat × Event) → List Moment
  | _, [] => []
  | e, (nowMs, event) :: history =>
    let after := e.next policy nowMs event
    ⟨e, nowMs, event, after⟩ :: moments policy after history

/-- An outcome penalises an endpoint that was not penalised. -/
def Moment.Penalizes (m : Moment) : Prop :=
  (∃ outcome, m.event = .outcome outcome) ∧ (unpack m.before.word).state ≠ .penalized ∧
    (unpack m.after.word).state = .penalized

/-- The endpoint had been healthy for at least the longest penalty. -/
def Moment.Recovered (policy : Policy) (m : Moment) : Prop :=
  (unpack m.before.word).state = .healthy ∧
    policy.penaltyMaxMs ≤ m.nowMs - m.before.healthySince

/-- A failure while penalised changes neither the deadline nor the round. -/
def Moment.Keeps (m : Moment) : Prop :=
  ∀ outcome, m.event = .outcome outcome → outcome ≠ .success →
    (unpack m.before.word).state = .penalized →
      (unpack m.after.word).timestampMs = (unpack m.before.word).timestampMs ∧
        (unpack m.after.word).penaltyRound = (unpack m.before.word).penaltyRound

/-- The laws of the penalties, for one event. -/
structure Moment.Lawful (policy : Policy) (m : Moment) : Prop where
  keeps : m.Keeps
  restarts : m.Penalizes → m.Recovered policy → (unpack m.after.word).penaltyRound = 1
  raises : m.Penalizes → ¬ m.Recovered policy →
    (unpack m.after.word).penaltyRound = min ((unpack m.before.word).penaltyRound + 1) 15
  deadline : m.Penalizes →
    let nominal := nominalPenalty policy (unpack m.after.word).penaltyRound
    m.nowMs + nominal * 75 / 100 ≤ (unpack m.after.word).timestampMs ∧
      (unpack m.after.word).timestampMs ≤ m.nowMs + nominal * 125 / 100

section Schedule

variable {policy : Policy}

lemma doubled_mono (h : nominal ≤ u64Max) :
    doubled policy times nominal ≤ doubled policy (times + 1) nominal := by
  induction times generalizing nominal with
  | zero => exact le_doubled policy 1 h
  | succ times ih =>
    rw [doubled, doubled]
    split
    · exact Nat.le_refl _
    · exact ih (Nat.min_le_right _ _)

lemma nominalPenalty_mono (hbase : policy.penaltyBaseMs ≤ u64Max) :
    Monotone (nominalPenalty policy) := by
  refine monotone_nat_of_le_succ fun round => min_le_min_right _ ?_
  cases round with
  | zero => exact Nat.le_refl _
  | succ round => exact doubled_mono hbase

lemma penalty_spread (round nowMs : Nat) :
    nominalPenalty policy round * 75 / 100 ≤ penalty policy round nowMs ∧
      penalty policy round nowMs ≤ nominalPenalty policy round * 125 / 100 := by
  exact ⟨Nat.div_le_div_right (Nat.mul_le_mul_left _ (by omega)),
    Nat.div_le_div_right (Nat.mul_le_mul_left _ (by omega))⟩

lemma Moment.Lawful.of_spared {m : Moment} (hnot : ¬ m.Penalizes) (hkeeps : m.Keeps) :
    m.Lawful policy :=
  ⟨hkeeps, fun h => absurd h hnot, fun h => absurd h hnot, fun h => absurd h hnot⟩

/-- The time stamp fits its field, and in a healthy word it says since when. -/
structure Endpoint.Sound (e : Endpoint) : Prop where
  fits : (unpack e.word).timestampMs < 2 ^ 50
  since : (unpack e.word).state = .healthy → (unpack e.word).timestampMs = e.healthySince

variable {e : Endpoint} {nowMs : Nat} {event : Event}

/-- What holds after an event at this time. -/
abbrev Endpoint.Proceeds (policy : Policy) (e : Endpoint) (nowMs : Nat) (event : Event) : Prop :=
  (e.next policy nowMs event).Sound ∧
    Moment.Lawful policy ⟨e, nowMs, event, e.next policy nowMs event⟩

lemma Endpoint.Sound.unchanged (h : e.Sound)
    (hword : event.apply policy nowMs e.word = e.word) : e.Proceeds policy nowMs event := by
  have hnext : e.next policy nowMs event = e := by simp [Endpoint.next, hword]
  rw [Endpoint.Proceeds, hnext]
  exact ⟨h, .of_spared (fun hp => hp.2.1 hp.2.2) fun _ _ _ _ => ⟨rfl, rfl⟩⟩

/-- The round and the time stamp stay. -/
lemma Endpoint.Sound.restated (h : e.Sound) (hword : event.apply policy nowMs e.word =
      pack state (unpack e.word).penaltyRound failures (unpack e.word).timestampMs)
    (hhealthy : state = .healthy → (unpack e.word).state = .healthy)
    (hpenalized : state = .penalized → (unpack e.word).state = .penalized ∨ event = .rollback) :
    e.Proceeds policy nowMs event := by
  have hunpack : unpack (e.next policy nowMs event).word =
      ⟨state, (unpack e.word).penaltyRound, failures % 2 ^ 8, (unpack e.word).timestampMs⟩ := by
    have hround : (unpack e.word).penaltyRound < 2 ^ 4 := Nat.mod_lt _ (by decide)
    rw [Endpoint.next, hword, unpack_pack, Nat.mod_eq_of_lt hround, Nat.mod_eq_of_lt h.fits]
  refine ⟨⟨by rw [hunpack]; exact h.fits, fun hafter => ?_⟩, .of_spared ?_ fun _ _ _ _ => ?_⟩
  · rw [hunpack] at hafter ⊢
    have hbefore := hhealthy hafter
    simpa [Endpoint.next, hbefore] using h.since hbefore
  · rintro ⟨⟨outcome, rfl⟩, hbefore, hafter⟩
    rw [hunpack] at hafter
    exact (hpenalized hafter).elim hbefore Event.noConfusion
  · rw [hunpack]
    exact ⟨rfl, rfl⟩

lemma Endpoint.proceeds_recovered (hnow : nowMs < 2 ^ 50)
    (hword : Event.apply policy nowMs e.word (.outcome .success) =
      pack .healthy (unpack e.word).penaltyRound 0 nowMs)
    (hstate : (unpack e.word).state ≠ .healthy) :
    e.Proceeds policy nowMs (.outcome .success) := by
  have hunpack : unpack (e.next policy nowMs (.outcome .success)).word =
      ⟨.healthy, (unpack e.word).penaltyRound % 2 ^ 4, 0, nowMs⟩ := by
    rw [Endpoint.next, hword, unpack_pack, Nat.mod_eq_of_lt hnow]
    rfl
  refine ⟨⟨by rw [hunpack]; exact hnow, fun _ => ?_⟩, .of_spared ?_ ?_⟩
  · rw [hunpack]
    simp [Endpoint.next, hword, hstate]
  · rintro ⟨-, -, hafter⟩
    rw [hunpack] at hafter
    cases hafter
  · rintro _ ⟨⟩ hfails
    exact absurd rfl hfails

lemma Endpoint.Sound.penalized (h : e.Sound)
    (hclock : nowMs + policy.penaltyMaxMs * 125 / 100 < 2 ^ 50)
    (hstate : (unpack e.word).state ≠ .penalized) (hword : event.apply policy nowMs e.word =
      pack .penalized (nextRound policy (unpack e.word) nowMs) failures
        (min (nowMs + penalty policy (nextRound policy (unpack e.word) nowMs) nowMs) u64Max)) :
    e.Proceeds policy nowMs event := by
  have hrecovered : Moment.Recovered policy ⟨e, nowMs, event, e.next policy nowMs event⟩ ↔
      (unpack e.word).state = .healthy ∧
        policy.penaltyMaxMs ≤ nowMs - (unpack e.word).timestampMs :=
    and_congr_right fun hhealthy => by rw [h.since hhealthy]
  have hnext := nextRound.eq_1 policy (unpack e.word) nowMs
  generalize nextRound policy (unpack e.word) nowMs = round at hword hnext
  have hpenalty := penalty_le policy round nowMs
  have hspread := @penalty_spread policy round nowMs
  have hround : round < 2 ^ 4 := by
    rw [hnext]
    split <;> omega
  -- neither the deadline nor the round is cut
  have hunpack : unpack (e.next policy nowMs event).word =
      ⟨.penalized, round, failures % 2 ^ 8, nowMs + penalty policy round nowMs⟩ := by
    have hmax : 2 ^ 50 ≤ u64Max := by decide
    have hfits : nowMs + penalty policy round nowMs < 2 ^ 50 := by omega
    rw [Endpoint.next, hword, unpack_pack, Nat.min_eq_left (by omega), Nat.mod_eq_of_lt hround,
      Nat.mod_eq_of_lt hfits]
  refine ⟨⟨?_, ?_⟩, fun _ _ _ hp => absurd hp hstate, fun _ hr => ?_, fun _ hr => ?_, fun _ => ?_⟩
  all_goals rw [hunpack]
  · show nowMs + _ < 2 ^ 50
    omega
  · exact State.noConfusion
  · exact hnext.trans (if_pos (hrecovered.mp hr))
  · refine (hnext.trans (if_neg (mt hrecovered.mpr hr))).trans ?_
    show _ = min ((unpack e.word).penaltyRound + 1) 15
    omega
  · exact ⟨Nat.add_le_add_left hspread.1 _, Nat.add_le_add_left hspread.2 _⟩

/-- **One event.** -/
theorem Endpoint.Sound.next (h : e.Sound)
    (hclock : nowMs + policy.penaltyMaxMs * 125 / 100 < 2 ^ 50) (event : Event) :
    e.Proceeds policy nowMs event := by
  cases event with
  | claim =>
    by_cases hclaim : (unpack e.word).state = .penalized ∧ (unpack e.word).deadlinePassed nowMs
    · exact h.restated (if_pos hclaim) nofun nofun
    · exact h.unchanged (if_neg hclaim)
  | rollback =>
    by_cases hprobing : (unpack e.word).state = .probing
    · exact h.restated (if_pos hprobing) nofun fun _ => .inr rfl
    · exact h.unchanged (if_neg hprobing)
  | outcome outcome =>
    have hmoves := nextWord_moves policy e.word outcome nowMs
    have happly : Event.apply policy nowMs e.word (.outcome outcome) =
      (nextWord policy e.word outcome nowMs).result e.word := rfl
    generalize nextWord policy e.word outcome nowMs = transition at hmoves happly
    cases hmoves with
    | idle | saturated => exact h.unchanged happly
    | closes hstate => exact h.restated happly (fun _ => hstate) nofun
    | recovers hstate hout =>
      subst hout
      exact Endpoint.proceeds_recovered (by omega) happly hstate
    | counts state hstate => exact h.restated happly (hstate ▸ id) fun hp => .inl (hstate.trans hp)
    | penalizes hstate => exact h.penalized hclock hstate happly

lemma Endpoint.Sound.lawful (h : e.Sound)
    (hclock : ∀ m ∈ history, m.1 + policy.penaltyMaxMs * 125 / 100 < 2 ^ 50) :
    ∀ m ∈ moments policy e history, m.Lawful policy := by
  induction history generalizing e with
  | nil => exact fun _ hm => nomatch hm
  | cons first history ih =>
    obtain ⟨hfirst, hrest⟩ := List.forall_mem_cons.mp hclock
    obtain ⟨hsound, hlawful⟩ := h.next hfirst first.2
    exact List.forall_mem_cons.mpr ⟨hlawful, ih hsound hrest⟩

/-- **The schedule of the penalties.** In every history of an endpoint whose times
leave room for the longest penalty in the 50 bits of a time stamp, each event keeps
the laws; and the nominal penalty grows with the round, up to the maximum. -/
theorem penalty_schedule (hbase : policy.penaltyBaseMs ≤ u64Max) (history : List (Nat × Event))
    (hclock : ∀ m ∈ history, m.1 + policy.penaltyMaxMs * 125 / 100 < 2 ^ 50) :
    (∀ m ∈ moments policy ⟨0, 0⟩ history, m.Lawful policy) ∧
      (∀ round round', round ≤ round' →
        nominalPenalty policy round ≤ nominalPenalty policy round') ∧
      ∀ round, nominalPenalty policy round ≤ policy.penaltyMaxMs := by
  have hsound : Endpoint.Sound ⟨0, 0⟩ := ⟨by decide, fun _ => by decide⟩
  refine ⟨hsound.lawful hclock, fun _ _ h => nominalPenalty_mono hbase h, fun round => ?_⟩
  exact Nat.min_le_right _ _

/-- An endpoint that fails, is claimed as a probe and fails again. -/
theorem penalty_schedule_probe :
    let policy := Policy.fromTimeout 1000 3
    let history := [(5, Event.outcome .pathFailure), (40000, .claim), (40001, .outcome .hardFailure)]
    (moments policy ⟨0, 0⟩ history).map (fun m => (unpack m.after.word).penaltyRound) = [1, 1, 2] ∧
      ∀ m ∈ moments policy ⟨0, 0⟩ history, m.Lawful policy :=
  ⟨by decide, (penalty_schedule (by decide) _ (by decide)).1⟩

/-- **A deadline in the past**: 2 to the 50 milliseconds after the pool was made, a
new penalty is over before it starts. -/
theorem deadline_in_the_past :
    ∃ m ∈ moments (Policy.fromTimeout 1000 3) ⟨0, 0⟩ [(2 ^ 50, .outcome .pathFailure)],
      m.Penalizes ∧ ¬ m.Lawful (Policy.fromTimeout 1000 3) := by
  refine ⟨_, List.mem_singleton_self _, ⟨⟨_, rfl⟩, by decide, by decide⟩, fun h => ?_⟩
  exact absurd (h.deadline ⟨⟨_, rfl⟩, by decide, by decide⟩).1 (by decide)

end Schedule

end FastAdHunter.Dns.Health
