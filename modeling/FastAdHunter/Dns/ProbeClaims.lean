import FastAdHunter.Dns.ProbeWalk

/-!
# No probe is stranded

A probe's claim has no timeout: an upstream whose word says probing stays so until
some query writes the word again. A record of who claimed each endpoint last is
kept beside the state. While a word is a probe's, its claimant has it in hand: it
has still to record an outcome, which always takes the word away from probing, or
to give the claim back.
-/

namespace FastAdHunter.Dns.Health

open Lib List

section Owners

/-- Who claimed each endpoint last. -/
abbrev Owners := Nat → Option Nat

def claimed? : Label HealthAccess Endpoints → Option Nat
  | ⟨_, ⟨_, .compareExchange endpoint _ new⟩, result, _, _⟩ =>
    match result with
    | .ok _ => if Probing new then some endpoint else none
    | .error _ => none
  | _ => none

def noteOwner (l : Label HealthAccess Endpoints) (owners : Owners) : Owners :=
  match claimed? l with
  | some endpoint => Function.update owners endpoint (some l.thread)
  | none => owners

/-- Every probe's word has a claimant, and no word has the unused state. -/
def Sound (s : Endpoints × Owners) : Prop :=
  ∀ e, s.1.word e % 4 ≠ 3 ∧ (Probing (s.1.word e) → ∃ i, s.2 e = some i)

/-- What the others leave a thread: an endpoint it was the last to claim keeps its
word, or is no longer probing. -/
def Keeps (i : Nat) (s t : Endpoints × Owners) : Prop :=
  ∀ e, t.2 e = some i → s.2 e = some i ∧ (t.1.word e = s.1.word e ∨ ¬ Probing (t.1.word e))

/-- What a thread does: where it does not claim, nothing starts probing. -/
def Guards (i : Nat) (s t : Endpoints × Owners) : Prop :=
  ∀ e, t.2 e = some i ∨
    (t.2 e = s.2 e ∧ (t.1.word e = s.1.word e ∨ ¬ Probing (t.1.word e)))

lemma stable_keeps : Stable Keeps where
  refl := fun _ _ _ h => ⟨h, .inl rfl⟩
  trans := by
    intro i s t u hst htu e hu
    obtain ⟨ht, hword⟩ := htu e hu
    obtain ⟨hs, hword'⟩ := hst e ht
    refine ⟨hs, ?_⟩
    rcases hword with hword | hword
    · rw [hword]
      exact hword'
    · exact .inr hword

variable {i : Nat} {s t : Endpoints × Owners} {endpoint word : Nat}

lemma Guards.keeps (hij : i ≠ j) (h : Guards i s t) : Keeps j s t := by
  intro e ht
  rcases h e with hi | ⟨hsame, hword⟩
  · exact absurd (Option.some.inj (hi.symm.trans ht)) hij
  · exact ⟨hsame.symm.trans ht, hword⟩

/-- At most this endpoint is in the thread's hands, with this word. -/
def Holding (i endpoint word : Nat) (s : Endpoints × Owners) : Prop :=
  ∀ e, s.2 e = some i → ¬ Probing (s.1.word e) ∨ (e = endpoint ∧ s.1.word e = word)

/-- Nothing is in the thread's hands. -/
def Released (i : Nat) (s : Endpoints × Owners) : Prop :=
  ∀ e, s.2 e = some i → ¬ Probing (s.1.word e)

lemma Holding.keeps
    (h : Holding i endpoint word s) (hst : Keeps i s t) : Holding i endpoint word t := by
  intro e ht
  obtain ⟨hs, hword⟩ := hst e ht
  rcases hword with hword | hword
  · rw [hword]
    exact h e hs
  · exact .inl hword

lemma Released.holding (h : Released i s) (endpoint word : Nat) : Holding i endpoint word s :=
  fun e hs => .inl (h e hs)

lemma Released.keeps (h : Released i s) (hst : Keeps i s t) : Released i t := by
  intro e ht
  obtain ⟨hs, hword⟩ := hst e ht
  rcases hword with hword | hword
  · rw [hword]
    exact h e hs
  · exact hword

lemma Holding.released (h : Holding i endpoint word s)
    (hword : s.1.word endpoint = word → ¬ Probing word) : Released i s := by
  intro e hs
  rcases h e hs with hnot | ⟨rfl, heq⟩
  · exact hnot
  · rw [heq]
    exact hword heq

lemma Holding.seen (h : Holding i endpoint word s) : Holding i endpoint (s.1.word endpoint) s := by
  intro e hs
  refine (h e hs).imp_right fun he => ⟨he.1, ?_⟩
  rw [he.1]

end Owners

section Accesses

variable {i : Nat} {α β : Type}

def HealthAccess.Quiet : {β : Type} → HealthAccess β → Prop
  | _, .compareExchange _ _ _ => False
  | _, .compareExchangeWeak _ _ _ => False
  | _, _ => True

lemma serve_quiet (hquiet : access.Quiet) (h : serve access x s = some (b, t)) :
    t.word = s.word ∧ claimed? ⟨i, ⟨β, access⟩, b, s, t⟩ = none := by
  cases access with
  | compareExchange | compareExchangeWeak => exact hquiet.elim
  | goOn => cases h
  | _ =>
    cases h
    exact ⟨rfl, rfl⟩

lemma exchange_cases {s t : Endpoints} (h : s.exchange endpoint current new fails = (b, t)) :
    (b = .ok current ∧ s.word endpoint = current ∧ t.word = Function.update s.word endpoint new) ∨
    (b = .error (s.word endpoint) ∧ t.word = s.word) := by
  unfold Endpoints.exchange at h
  split at h
  next hword =>
    cases h
    exact .inl ⟨rfl, hword.1, rfl⟩
  next =>
    cases h
    exact .inr ⟨rfl, rfl⟩

lemma HealthAccess.AtOnce.quiet {access : HealthAccess β} (h : access.AtOnce) :
    access.Quiet := by
  cases access <;> first | exact h | trivial

variable {s : Endpoints × Owners}

lemma unchanged (hword : t.1.word = s.1.word) (howner : t.2 = s.2) :
    Guards i s t ∧ (Sound s → Sound t) ∧ Keeps i s t := by
  refine ⟨fun e => .inr ⟨congrFun howner e, .inl (congrFun hword e)⟩, fun h => ?_, fun e he => ?_⟩
  · intro e
    rw [hword, howner]
    exact h e
  · exact ⟨(congrFun howner e).symm.trans he, .inl (congrFun hword e)⟩

/-- An access takes a thread from what it knows of the words and the claims to this. -/
abbrev Takes (i : Nat) (A : Endpoints × Owners → Prop) (access : HealthAccess β)
    (B : β → Endpoints × Owners → Prop) : Prop :=
  Leads (machine.ghost noteOwner) Sound Guards i A access B

lemma Takes.quiet (hquiet : access.Quiet) (hkeeps : ∀ s t, Keeps i s t → A s → A t)
    (h : ∀ x s b t, serve access x s = some (b, t.1) → A t → B b t) : Takes i A access B := by
  intro s x b t hsound hs hrun
  obtain ⟨hserve, hnote⟩ := Machine.ghost_run hrun
  obtain ⟨hword, hclaimed⟩ := serve_quiet (i := i) hquiet hserve
  rw [noteOwner, hclaimed] at hnote
  obtain ⟨hguards, hsound', hkeep⟩ := unchanged (i := i) hword hnote
  exact ⟨hguards, hsound' hsound, h x s.1 b t hserve (hkeeps s t hkeep hs)⟩

lemma lasting (hkeeps : ∀ s t, Keeps i s t → A s → A t) :
    Lasting (machine.ghost noteOwner) Sound Keeps Guards i A :=
  ⟨hkeeps, fun _ honce => Takes.quiet honce.quiet hkeeps fun _ _ _ _ _ h => h⟩

lemma written (hnew : ∃ state round failures timestamp, state ≠ State.probing ∧
      new = pack state round failures timestamp)
    (hword : t.1.word = Function.update s.1.word endpoint new) (howner : t.2 = s.2) :
    Guards i s t ∧ (Sound s → Sound t) ∧ ∀ word, Holding i endpoint word s → Released i t := by
  obtain ⟨state, round, failures, timestamp, hstate, rfl⟩ := hnew
  have hnot := not_probing_pack hstate round failures timestamp
  have hmod := pack_mod state round failures timestamp
  have hcode : state.code < 3 := by cases state <;> decide
  refine ⟨fun e => ?_, fun h e => ?_, fun word h e he => ?_⟩
  all_goals
    rw [hword]
    by_cases hee : e = endpoint
  · rw [hee, Function.update_self]
    exact .inr ⟨congrFun howner _, .inr hnot⟩
  · rw [Function.update_of_ne hee]
    exact .inr ⟨congrFun howner _, .inl rfl⟩
  · rw [hee, Function.update_self]
    exact ⟨by omega, fun h => absurd h hnot⟩
  · rw [Function.update_of_ne hee, howner]
    exact h e
  · rw [hee, Function.update_self]
    exact hnot
  · rw [Function.update_of_ne hee]
    rw [howner] at he
    exact (h e he).resolve_right fun h' => hee h'.1

lemma Takes.exchangeWeak (hnew : ∃ state round failures timestamp, state ≠ State.probing ∧
      new = pack state round failures timestamp) :
    Takes i (Holding i endpoint word) (.compareExchangeWeak endpoint current new) fun
      | .ok _ => Released i
      | .error actual => fun t => t.1.word endpoint = actual ∧ Holding i endpoint word t := by
  intro s x b t hsound hs hrun
  obtain ⟨hserve, hnote⟩ := Machine.ghost_run hrun
  rcases exchange_cases (Option.some.inj hserve) with ⟨rfl, -, hword⟩ | ⟨rfl, hword⟩
  · obtain ⟨hguards, hsound', hreleased⟩ := written (i := i) hnew hword hnote
    exact ⟨hguards, hsound' hsound, hreleased word hs⟩
  · obtain ⟨hguards, hsound', hkeep⟩ := unchanged (i := i) hword hnote
    exact ⟨hguards, hsound' hsound, congrFun hword _, hs.keeps hkeep⟩

lemma Takes.claim {endpoint current round failures timestamp : Nat} :
    Takes i (Released i)
      (.compareExchange endpoint current (pack .probing round failures timestamp)) fun
      | .ok _ => Holding i endpoint (pack .probing round failures timestamp)
      | .error _ => Released i := by
  intro s x b t hsound hfree hrun
  obtain ⟨hserve, hnote⟩ := Machine.ghost_run hrun
  rcases exchange_cases (Option.some.inj hserve) with ⟨rfl, -, hword⟩ | ⟨rfl, hword⟩
  · have howner : t.2 = Function.update s.2 endpoint (some i) := by
      rw [hnote, noteOwner, claimed?, if_pos (probing_pack ..)]
    have hword' : t.1.word = Function.update s.1.word endpoint
      (pack .probing round failures timestamp) := hword
    refine ⟨fun e => ?_, fun e => ?_, fun e he => ?_⟩
    all_goals
      rw [hword']
      by_cases hee : e = endpoint
    · rw [howner, hee, Function.update_self]
      exact .inl rfl
    · rw [howner, Function.update_of_ne hee, Function.update_of_ne hee]
      exact .inr ⟨rfl, .inl rfl⟩
    · rw [howner, hee, Function.update_self, Function.update_self]
      refine ⟨?_, fun _ => ⟨i, rfl⟩⟩
      have hmod := pack_mod .probing round failures timestamp
      rw [State.code] at hmod
      omega
    · rw [howner, Function.update_of_ne hee, Function.update_of_ne hee]
      exact hsound e
    · rw [hee, Function.update_self]
      exact .inr ⟨rfl, rfl⟩
    · rw [howner, Function.update_of_ne hee] at he
      rw [Function.update_of_ne hee]
      exact .inl (hfree e he)
  · obtain ⟨hguards, hsound', hkeep⟩ := unchanged (i := i) hword hnote
    exact ⟨hguards, hsound' hsound, hfree.keeps hkeep⟩

end Accesses

section Programs

variable {i : Nat} {s t : Endpoints × Owners}

/-- What is in the thread's hands, if there is a guard. -/
def InHand (i : Nat) (rollback : Option ProbeGuard) : Endpoints × Owners → Prop :=
  rollback.elim (Released i) fun guard => Holding i guard.endpoint guard.claimed

lemma InHand.keeps (hst : Keeps i s t) (h : InHand i rollback s) : InHand i rollback t := by
  cases rollback with
  | none => exact Released.keeps h hst
  | some guard => exact Holding.keeps h hst

/-- What a query has in hand at each of its stages. -/
def handStages (policy : Policy) (i : Nat) : Stages (Endpoints × Owners) policy i where
  M := machine.ghost noteOwner
  inv := Sound
  rely := Keeps
  guar := Guards
  stable := stable_keeps
  free _ := Released i
  reading endpoint old _ := Holding i endpoint old
  picked endpoint s := ∃ word, Holding i endpoint word s
  held guard := Holding i guard.endpoint guard.claimed
  tried guard := Holding i guard.endpoint guard.claimed
  lasting_free _ := lasting fun _ _ hst h => h.keeps hst
  stable_reading _ _ _ _ _ hst h := h.keeps hst
  lasting_picked _ := lasting fun _ _ hst ⟨word, h⟩ => ⟨word, h.keeps hst⟩
  stable_held _ _ _ hst h := h.keeps hst
  stable_tried _ _ _ hst h := h.keeps hst
  forget h := h
  sample := Takes.quiet trivial (fun _ _ hst h => h.keeps hst) fun _ _ _ _ _ h => h
  sample_reading := Takes.quiet trivial (fun _ _ hst h => h.keeps hst) fun _ _ _ _ _ h => h
  claims _ _ := Takes.claim.mono fun exchanged _ h =>
    match exchanged with
    | .ok _ => ⟨_, h⟩
    | .error _ => h
  guards := by
    refine Takes.quiet trivial (fun _ _ hst ⟨word, h⟩ => ⟨word, h.keeps hst⟩) ?_
    rintro x s b ⟨t, owners⟩ hserve ⟨word, h⟩
    cases hserve
    exact h.seen
  attempts rollback _ hs hnext :=
    have hquiet : ∀ {β : Type} {access : HealthAccess β}, access.Quiet →
        Takes i (InHand i rollback) access fun _ => InHand i rollback :=
      fun hquiet => Takes.quiet hquiet (fun _ _ => InHand.keeps) fun _ _ _ _ _ h => h
    Holds.act (fun _ _ => InHand.keeps) (hquiet trivial) hs fun _ _ ht =>
      Holds.act (fun _ _ => InHand.keeps) (hquiet trivial) ht hnext
  reads {endpoint} rollback hguard := by
    refine Takes.quiet (A := InHand i rollback) trivial (fun _ _ => InHand.keeps) ?_
    intro x s old t hserve ht
    obtain ⟨t, owners⟩ := t
    cases hserve
    cases rollback with
    | none => exact Released.holding ht _ _
    | some guard => exact hguard guard rfl ▸ Holding.seen ht
  stores hnext := (Takes.exchangeWeak hnext.leaves_probing).mono fun exchanged _ h =>
    match exchanged with
    | .ok _ => h
    | .error _ => h.1 ▸ h.2.seen
  keeps hnext h := h.released fun _ => hnext.leaves_probing
  restores {guard} := by
    refine (Takes.exchangeWeak ⟨.penalized, _, _, _, State.noConfusion, rfl⟩).mono fun exchanged t h => ?_
    cases exchanged with
    | ok _ => exact h
    | error actual =>
      dsimp only
      split
      · exact h.2
      next hne => exact h.2.released fun hword => absurd (h.1.symm.trans hword) hne
  disarms hstate h := h.released fun _ => hstate

lemma Query.released (pool : UpstreamPool) (query : Query) (hs : Released i s) :
    Holds (machine.ghost noteOwner) Sound Keeps Guards i (fun _ => Released i) (query.prog pool) s := by
  refine Holds.bind stable_keeps ((Stages.walkFrom pool (S := handStages pool.policy i)
    _ _ _ _ _ _ hs).mono fun walked t ht => ?_)
  exact Holds.act (fun _ _ hst h => h.keeps hst) (Takes.quiet trivial
    (fun _ _ hst h => h.keeps hst) fun _ _ _ _ _ h => h) ht fun _ t ht u htu => ht.keeps htu

end Programs

section Stranded

variable {pool : UpstreamPool} {queries : List Query} {labels : List (Label HealthAccess Endpoints)}
  {c : Pool HealthAccess Endpoints Walked}

lemma claimed_of_owner (howner : recorded noteOwner (fun _ => none) labels e = some i) :
    ∃ l ∈ labels, l.thread = i ∧ claimed? l = some e := by
  induction labels using List.reverseRecOn with
  | nil => cases howner
  | append_singleton labels l ih =>
    rw [recorded, foldl_append, foldl_cons, foldl_nil, noteOwner] at howner
    have hearlier : ∀ h : recorded noteOwner (fun _ => none) labels e = some i,
        ∃ m ∈ labels ++ [l], m.thread = i ∧ claimed? m = some e := fun h => by
      obtain ⟨m, hm, hclaims⟩ := ih h
      exact ⟨m, mem_append_left _ hm, hclaims⟩
    cases hclaimed : claimed? l with
    | none =>
      rw [hclaimed] at howner
      exact hearlier howner
    | some endpoint =>
      rw [hclaimed] at howner
      dsimp only at howner
      by_cases hee : e = endpoint
      · subst hee
        rw [Function.update_self, Option.some.injEq] at howner
        exact ⟨l, by simp, howner, hclaimed⟩
      · rw [Function.update_of_ne hee] at howner
        exact hearlier howner

/-- **No probe is stranded.** In every run of queries on a new pool, whatever is
selected, fails, is dropped or exchanged in between: an endpoint is probing only
while a query that claimed it has not finished, and no word has the unused
state. -/
theorem probing_claimed
    (hrun : Pool.Run machine ⟨Endpoints.new, queries.map (Query.prog pool)⟩ labels c) (e : Nat) :
    c.state.word e % 4 ≠ 3 ∧ (Probing (c.state.word e) → ∃ l ∈ labels, claimed? l = some e ∧
        ∃ p, c.threads[l.thread]? = some p ∧ p.result? = none) := by
  have hghost : Pool.Run (machine.ghost noteOwner) _ _ _ := hrun.ghost (fun _ => none)
  have hsound : Sound (Endpoints.new, fun _ => none) := by
    have hzero : ¬ Probing 0 := by decide
    exact fun _ => ⟨Nat.zero_ne_add_one 2, fun h => absurd h hzero⟩
  obtain ⟨hend, -, hthreads⟩ := hghost.holds (Q := fun i _ => Released i) stable_keeps
    (fun i j hij s t _ hguards => Guards.keeps hij hguards) hsound fun i p hp => by
      obtain ⟨query, -, rfl⟩ := mem_map.mp (mem_of_getElem? hp)
      exact query.released pool fun _ h => Option.noConfusion rfl (heq_of_eq h)
  refine ⟨(hend e).1, fun hprobing => ?_⟩
  obtain ⟨i, howner⟩ := (hend e).2 hprobing
  obtain ⟨l, hl, rfl, hclaimed⟩ := claimed_of_owner howner
  have hlt : l.thread < c.threads.length := by
    rw [hrun.threads_length]
    exact hrun.thread_lt l hl
  have hp := getElem?_eq_getElem hlt
  refine ⟨l, hl, hclaimed, _, hp, ?_⟩
  -- a query that has finished has released the endpoint
  cases hprog : c.threads[l.thread] with
  | act access next => rfl
  | ret walked =>
    rw [hprog] at hp
    exact absurd hprobing (hthreads _ _ hp _ (stable_keeps.refl _ _) e howner)

/-- One plain server. -/
def samplePool : UpstreamPool where
  servers := [.plain]
  timeoutMs := 1
  penaltyFailures := 1
  servers_nonempty := by decide
  servers_few := by decide
  timeout_range := by decide
  penaltyFailures_range := by decide

/-- Nothing in particular. -/
def Chance.plain : Chance := ⟨0, false, none⟩

/-- An attempt that meets a closed port. -/
def Chance.refused : Chance := ⟨0, false, some (.error .connectionRefused)⟩

/-- A failed attempt, and a second later a query that claims a probe. -/
def claimSchedule : List (Nat × Chance) :=
  List.replicate 3 (0, .plain) ++ [(0, .refused)] ++ List.replicate 7 (0, .plain) ++
    [(1, ⟨1000000000, false, none⟩), (1, .plain), (1, .plain)]

theorem probing_claimed_sample :
    ∃ labels c, Pool.Run machine ⟨Endpoints.new,
        [Query.mk .record 2, Query.mk .record 2].map (Query.prog samplePool)⟩ labels c ∧
      Probing (c.state.word 0) ∧ ∃ l ∈ labels, claimed? l = some 0 ∧
        ∃ p, c.threads[l.thread]? = some p ∧ p.result? = none := by
  refine Pool.exists_run claimSchedule (fun _ c => Probing (c.state.word 0)) (by decide +kernel) ?_
  exact fun labels c hrun hprobing => ⟨hprobing, (probing_claimed hrun 0).2 hprobing⟩

end Stranded

end FastAdHunter.Dns.Health
