import FastAdHunter.Dns.Message
import FastAdHunter.Lib.Interference

/-!
# The connection of an encrypted upstream

The queries on one DoT or DoH upstream share its connection, kept in a slot behind a
lock. Each connection has a generation. A query takes a copy out of the slot and sends on
it without the lock; when that fails it comes back with the generation, to clear the slot
or to have the connection replaced. Meanwhile the slot may hold a newer connection, which
it leaves alone.

The slot is read and written under its lock only, which is held across the connect: what a
query does between taking the lock and releasing it is one step here.
-/

namespace FastAdHunter.Dns.Exchange

open Lib

/-- The kinds of error that a query tells apart. -/
inductive ErrorKind where
  | timedOut
  | other
  deriving DecidableEq

/-- The live connection, if any. Connections are told apart by the handshake they come
from. -/
structure Slot where
  generation : Nat
  exchange : Option Nat

def Slot.default : Slot := ⟨0, none⟩

def Slot.store (slot : Slot) (exchange : Nat) : Slot := ⟨slot.generation + 1, some exchange⟩

structure Held where
  exchange : Nat
  generation : Nat
  fresh : Bool

structure ExchangeConn where
  slot : Slot
  handshakes : Nat

def ExchangeConn.new : ExchangeConn := ⟨.default, 0⟩

/-- The connection of the slot, unless it is the stale one, or a new one. A query that is
dropped while it connects gets no result, and releases the lock. -/
def ExchangeConn.acquire (s : ExchangeConn) (stale : Option Nat)
    (connected : Option (Except ErrorKind Unit)) :
    Option (Except ErrorKind Held) × ExchangeConn :=
  match if stale ≠ some s.slot.generation then s.slot.exchange else none with
  | some exchange => (some (.ok ⟨exchange, s.slot.generation, false⟩), s)
  | none =>
    match connected with
    | none => (none, ⟨s.slot, s.handshakes + 1⟩)
    | some (.error error) => (some (.error error), ⟨s.slot, s.handshakes + 1⟩)
    | some (.ok _) =>
      let slot := s.slot.store s.handshakes
      (some (.ok ⟨s.handshakes, slot.generation, true⟩), ⟨slot, s.handshakes + 1⟩)

def ExchangeConn.invalidateIfCurrent (s : ExchangeConn) (generation : Nat) : ExchangeConn :=
  if s.slot.generation = generation then ⟨⟨s.slot.generation, none⟩, s.handshakes⟩ else s

inductive SlotAccess : Type → Type where
  | acquire (stale : Option Nat) : SlotAccess (Option (Except ErrorKind Held))
  | sendOnce (exchange : Nat) (request : Message) : SlotAccess (Option (Except ErrorKind Message))
  | invalidateIfCurrent (generation : Nat) : SlotAccess Unit

/-- How a connect and a send end; not at all, for a query that is dropped. -/
structure Chance where
  connected : Option (Except ErrorKind Unit)
  answer : Option (Except ErrorKind Message)

def machine : Machine SlotAccess ExchangeConn Chance where
  run access _ x s :=
    match access with
    | .acquire stale => some (s.acquire stale x.connected)
    | .sendOnce _ _ => some (x.answer, s)
    | .invalidateIfCurrent generation => some ((), s.invalidateIfCurrent generation)

/-- The second attempt, not on the connection that failed. -/
def retry (request : Message) (generation : Nat) :
    Prog SlotAccess (Option (Except ErrorKind Message)) := do
  match ← SlotAccess.acquire (some generation) with
  | none => pure none
  | some (.error error) => pure (some (.error error))
  | some (.ok held) => do
      match ← SlotAccess.sendOnce held.exchange request with
      | none => pure none
      | some (.ok response) => pure (some (.ok response))
      | some (.error error) => do
          SlotAccess.invalidateIfCurrent held.generation
          pure (some (.error error))

def query (request : Message) : Prog SlotAccess (Option (Except ErrorKind Message)) := do
  match ← SlotAccess.acquire none with
  | none => pure none
  | some (.error error) => pure (some (.error error))
  | some (.ok held) => do
      match ← SlotAccess.sendOnce held.exchange request with
      | none => pure none
      | some (.ok response) => pure (some (.ok response))
      | some (.error error) =>
          if held.fresh = true ∨ error = .timedOut then do
            SlotAccess.invalidateIfCurrent held.generation
            pure (some (.error error))
          else retry request held.generation

def together (requests : List Message) :
    Pool SlotAccess ExchangeConn (Option (Except ErrorKind Message)) :=
  ⟨.new, requests.map query⟩

/-- The connections that each query has failed on. -/
def noteFailure (l : Label SlotAccess ExchangeConn) (failed : Nat → List Nat) : Nat → List Nat :=
  match l with
  | ⟨i, ⟨_, .sendOnce exchange _⟩, result, _, _⟩ =>
    match result with
    | some (.error _) => Function.update failed i (exchange :: failed i)
    | _ => failed
  | _ => failed

def failedOn (i : Nat) (past : List (Label SlotAccess ExchangeConn)) : List Nat :=
  recorded noteFailure (fun _ => []) past i

/-- The slot moves on: a generation keeps its connection or loses it. -/
structure Advances (slot slot' : Slot) : Prop where
  le : slot.generation ≤ slot'.generation
  same : slot'.generation = slot.generation →
    slot'.exchange = slot.exchange ∨ slot'.exchange = none

lemma Advances.refl (slot : Slot) : Advances slot slot :=
  ⟨Nat.le_refl _, fun _ => .inl rfl⟩

lemma Advances.trans (hab : Advances a b) (hbc : Advances b c) :
    Advances a c := by
  refine ⟨Nat.le_trans hab.le hbc.le, fun heq => ?_⟩
  have hle := hab.le
  have hle' := hbc.le
  rcases hbc.same (by omega) with hsame | hnone
  · rw [hsame]
    exact hab.same (by omega)
  · exact .inr hnone

/-- A connection and its generation, as a query remembers them. -/
structure Remembers (exchange generation : Nat) (slot : Slot) : Prop where
  le : generation ≤ slot.generation
  same : slot.generation = generation → slot.exchange = none ∨ slot.exchange = some exchange

lemma Remembers.advance (h : Remembers exchange generation a) (hab : Advances a b) :
    Remembers exchange generation b := by
  refine ⟨Nat.le_trans h.le hab.le, fun heq => ?_⟩
  have hle := hab.le
  have hle' := h.le
  rcases hab.same (by omega) with hsame | hnone
  · rw [hsame]
    exact h.same (by omega)
  · exact .inl hnone

/-- What a query has failed on when it comes for a connection. -/
def Excuse (stale : Option Nat) (failed : List Nat) (slot : Slot) : Prop :=
  match stale with
  | none => failed = []
  | some generation => ∃ exchange, failed = [exchange] ∧ Remembers exchange generation slot

lemma Excuse.advance (h : Excuse stale failed a) (hab : Advances a b) : Excuse stale failed b := by
  cases stale with
  | none => exact h
  | some generation =>
    obtain ⟨exchange, hfailed, hknown⟩ := h
    exact ⟨exchange, hfailed, hknown.advance hab⟩

/-- A slot that has nothing for the query is empty, or holds what it failed on. -/
lemma Excuse.unusable (h : Excuse stale failed slot)
    (hnone : (if stale ≠ some slot.generation then slot.exchange else none) = none) :
    slot.exchange = none ∨ ∃ exchange, failed = [exchange] ∧ slot.exchange = some exchange := by
  by_cases hstale : stale = some slot.generation
  · subst hstale
    obtain ⟨exchange, hfailed, hknown⟩ := h
    exact (hknown.same rfl).imp_right fun hsome => ⟨exchange, hfailed, hsome⟩
  · rw [if_pos hstale] at hnone
    exact .inl hnone

/-- What a query that has failed on these connections may do to the slot. -/
structure Proper (failed : List Nat) (s t : ExchangeConn) : Prop where
  advances : Advances s.slot t.slot
  drops : ∀ e, s.slot.exchange = some e → t.slot.exchange ≠ some e → e ∈ failed
  opens : t.handshakes ≠ s.handshakes →
    ∀ e ∈ failed, s.slot.exchange = none ∨ s.slot.exchange = some e

lemma Proper.of_same (hslot : t.slot = s.slot) (hopens : t.handshakes ≠ s.handshakes →
      ∀ e ∈ failed, s.slot.exchange = none ∨ s.slot.exchange = some e) : Proper failed s t :=
  ⟨hslot ▸ .refl _, fun _ he hne => absurd (hslot ▸ he) hne, hopens⟩

lemma acquire_proper (hs : Excuse stale failed s.slot) (h : s.acquire stale connected = (r, t)) :
    Proper failed s t ∧ ∀ held, r = some (.ok held) →
      Remembers held.exchange held.generation t.slot := by
  unfold ExchangeConn.acquire at h
  split at h
  · next exchange hfound =>
    cases h
    refine ⟨.of_same rfl fun hne => absurd rfl hne, fun held heq => ?_⟩
    cases heq
    refine ⟨Nat.le_refl _, fun _ => .inr ?_⟩
    split at hfound
    · exact hfound
    · cases hfound
  · next hnone =>
    have hunusable := hs.unusable hnone
    have hopens : ∀ e ∈ failed, s.slot.exchange = none ∨ s.slot.exchange = some e := by
      rintro e he
      refine hunusable.imp_right fun ⟨exchange, hfailed, hsome⟩ => ?_
      rw [hfailed, List.mem_singleton] at he
      rw [he, hsome]
    split at h
    · cases h
      exact ⟨.of_same rfl fun _ => hopens, nofun⟩
    · cases h
      exact ⟨.of_same rfl fun _ => hopens, nofun⟩
    · cases h
      refine ⟨⟨⟨Nat.le_succ _, fun heq => absurd heq (Nat.succ_ne_self _)⟩, fun e he _ => ?_,
        fun _ => hopens⟩, fun held heq => ?_⟩
      · rcases hunusable with hempty | ⟨exchange, hfailed, hsome⟩
        · cases hempty.symm.trans he
        · cases hsome.symm.trans he
          rw [hfailed]
          exact List.mem_singleton_self _
      · cases heq
        exact ⟨Nat.le_refl _, fun _ => .inr rfl⟩

lemma invalidateIfCurrent_proper (hfailed : exchange ∈ failed)
    (hs : Remembers exchange generation s.slot) :
    Proper failed s (s.invalidateIfCurrent generation) := by
  rw [ExchangeConn.invalidateIfCurrent]
  split
  · next hcurrent =>
    refine ⟨⟨Nat.le_refl _, fun _ => .inr rfl⟩, fun e he _ => ?_, fun hne => absurd rfl hne⟩
    rcases hs.same hcurrent with hempty | hsome
    · cases hempty.symm.trans he
    · cases hsome.symm.trans he
      exact hfailed
  · exact .of_same rfl fun hne => absurd rfl hne

section Interference

/-- The upstream with what its queries have failed on. -/
abbrev Watched := ExchangeConn × (Nat → List Nat)

/-- What the others leave a query. -/
structure Rely (i : Nat) (s t : Watched) : Prop where
  failed : t.2 i = s.2 i
  advances : Advances s.1.slot t.1.slot

structure Guar (i : Nat) (s t : Watched) : Prop where
  proper : Proper (s.2 i) s.1 t.1
  failed : ∀ j, j ≠ i → t.2 j = s.2 j

lemma stable_rely : Stable Rely where
  refl _ _ := ⟨rfl, .refl _⟩
  trans _ _ _ _ hst htu := ⟨htu.failed.trans hst.failed, hst.advances.trans htu.advances⟩

lemma Guar.rely (h : Guar i s t) (hij : i ≠ j) : Rely j s t :=
  ⟨h.failed j hij.symm, h.proper.advances⟩

abbrev Minds (i : Nat) {α : Type} : Prog SlotAccess α → Watched → Prop :=
  Holds (machine.ghost noteFailure) (fun _ => True) Rely Guar i fun _ _ => True

variable {α : Type} {i : Nat} {s : Watched}

lemma Minds.acquire (hfailed : s.2 i = failed) (hs : Excuse stale failed s.1.slot)
    (hheld : ∀ held d, d.2 i = failed → Remembers held.exchange held.generation d.1.slot →
      Minds i (next (some (.ok held))) d)
    (hother : ∀ r d, (∀ held, r ≠ some (.ok held)) → Minds i (next r) d) :
    Minds i (.act (.acquire stale) next) s := by
  rintro d hd - x r t hrun
  obtain ⟨hacquire, hnote⟩ := Machine.ghost_run hrun
  have hfailed' := hd.failed.trans hfailed
  obtain ⟨hproper, hknows⟩ := acquire_proper (hs.advance hd.advances) (Option.some.inj hacquire)
  refine ⟨⟨hfailed' ▸ hproper, fun j _ => congrFun hnote j⟩, trivial, ?_⟩
  match r with
  | some (.ok held) => exact hheld held t ((congrFun hnote i).trans hfailed') (hknows held rfl)
  | some (.error error) => exact hother _ _ nofun
  | none => exact hother _ _ nofun

lemma Minds.sendOnce (hfailure : ∀ error d, Advances s.1.slot d.1.slot → d.2 i = exchange :: s.2 i →
      Minds i (next (some (.error error))) d)
    (hother : ∀ r d, (∀ error, r ≠ some (.error error)) → Minds i (next r) d) :
    Minds i (.act (.sendOnce exchange request) next) s := by
  rintro d hd - x r t hrun
  obtain ⟨hsend, hnote⟩ := Machine.ghost_run hrun
  obtain ⟨-, hstate⟩ := Prod.mk.inj (Option.some.inj hsend)
  have hproper : Proper (d.2 i) d.1 t.1 := hstate ▸ .of_same rfl fun hne => absurd rfl hne
  match r with
  | some (.error error) =>
    have hnote : t.2 = Function.update d.2 i (exchange :: d.2 i) := hnote
    refine ⟨⟨hproper, fun j hj => ?_⟩, trivial, hfailure error t (hstate ▸ hd.advances) ?_⟩
    · rw [hnote, Function.update_of_ne hj]
    · rw [hnote, Function.update_self, hd.failed]
  | some (.ok response) => exact ⟨⟨hproper, fun j _ => congrFun hnote j⟩, trivial, hother _ _ nofun⟩
  | none => exact ⟨⟨hproper, fun j _ => congrFun hnote j⟩, trivial, hother _ _ nofun⟩

lemma Minds.invalidate (hfailed : exchange ∈ s.2 i) (hs : Remembers exchange generation s.1.slot) :
    Minds i (.act (.invalidateIfCurrent generation) fun _ => .ret a) s := by
  rintro d hd - x r t hrun
  obtain ⟨hinvalidate, hnote⟩ := Machine.ghost_run hrun
  obtain ⟨-, hstate⟩ := Prod.mk.inj (Option.some.inj hinvalidate)
  have hproper := invalidateIfCurrent_proper (hd.failed ▸ hfailed) (hs.advance hd.advances)
  exact ⟨⟨hstate ▸ hproper, fun j _ => congrFun hnote j⟩, trivial, fun _ _ => trivial⟩

lemma retry_minds (request : Message) (hfailed : s.2 i = [exchange])
    (hs : Remembers exchange generation s.1.slot) : Minds i (retry request generation) s := by
  refine Minds.acquire hfailed ⟨exchange, rfl, hs⟩ (fun held d hd hheld => ?_) fun r d hr => ?_
  · refine Minds.sendOnce (fun error e hadvances he => ?_) fun answer e hanswer => ?_
    · refine Minds.invalidate ?_ (hheld.advance hadvances)
      rw [he]
      exact List.mem_cons_self
    · match answer with
      | none | some (.ok response) => exact fun _ _ => trivial
      | some (.error error) => exact absurd rfl (hanswer error)
  · match r with
    | none | some (.error error) => exact fun _ _ => trivial
    | some (.ok held) => exact absurd rfl (hr held)

lemma query_minds (request : Message) (hs : s.2 i = []) : Minds i (query request) s := by
  have hexcuse : Excuse none [] s.1.slot := rfl
  refine Minds.acquire hs hexcuse (fun held d hd hheld => ?_) fun r d hr => ?_
  · refine Minds.sendOnce (fun error e hadvances he => ?_) fun answer e hanswer => ?_
    · rw [hd] at he
      show Minds i (if held.fresh = true ∨ error = .timedOut then _ else _) e
      split
      · refine Minds.invalidate ?_ (hheld.advance hadvances)
        rw [he]
        exact List.mem_cons_self
      · exact retry_minds request he (hheld.advance hadvances)
    · match answer with
      | none | some (.ok response) => exact fun _ _ => trivial
      | some (.error error) => exact absurd rfl (hanswer error)
  · match r with
    | none | some (.error error) => exact fun _ _ => trivial
    | some (.ok held) => exact absurd rfl (hr held)

/-- **A connection is replaced only by its own failure.** In every run of queries on one
upstream, a step that takes a connection out of the slot is of a query that has failed on
it; and a query that has failed on a connection starts another handshake only while the
slot is empty or still holds that connection. -/
theorem replaced_by_own_failure {requests : List Message}
    {c : Pool SlotAccess ExchangeConn (Option (Except ErrorKind Message))}
    {first rest : List (Label SlotAccess ExchangeConn)} {l : Label SlotAccess ExchangeConn}
    (hrun : Pool.Run machine (together requests) (first ++ l :: rest) c) :
    (∀ exchange, l.before.slot.exchange = some exchange → l.after.slot.exchange ≠ some exchange →
      exchange ∈ failedOn l.thread first) ∧
    (l.after.handshakes ≠ l.before.handshakes → ∀ exchange ∈ failedOn l.thread first,
      l.before.slot.exchange = none ∨ l.before.slot.exchange = some exchange) := by
  have hghost : Pool.Run (machine.ghost noteFailure) _ _ _ := hrun.ghost fun _ => []
  obtain ⟨-, hlabels, -⟩ := hghost.holds (Q := fun _ _ _ => True) stable_rely
    (fun _ _ hij _ _ _ h => Guar.rely h hij) trivial fun i p hp => by
      obtain ⟨request, -, rfl⟩ := List.mem_map.mp (List.mem_of_getElem? hp)
      exact query_minds request rfl
  obtain ⟨-, hguar⟩ := hlabels _ (mem_annotate.mpr ⟨first, l, rest, rfl, rfl⟩)
  exact ⟨hguar.proper.drops, hguar.proper.opens⟩

/-- The connection that the first query opened fails the second, which replaces it. -/
theorem replaced_by_own_failure_reused :
    ∃ first l c, Pool.Run machine (together [.query 1, .query 2]) (first ++ [l]) c ∧
      l.before.slot.exchange = some 0 ∧ l.after.slot.exchange ≠ some 0 ∧
      0 ∈ failedOn l.thread first := by
  obtain ⟨labels, c, hrun, hlast⟩ := Pool.exists_run (M := machine)
    (c := together [.query 1, .query 2])
    ([(0, some (.ok (.query 1))), (0, some (.ok (.query 1))), (1, none),
      (1, some (.error .other)), (1, none)].map fun r => (r.1, ⟨some (.ok ()), r.2⟩))
    (fun labels _ => labels.getLast?.any (fun l => decide (l.before.slot.exchange = some 0 ∧
      l.after.slot.exchange ≠ some 0)) = true) (by decide +kernel) fun _ _ _ h => h
  obtain ⟨l, hl, hlast⟩ := (Option.any_eq_true _ _).mp hlast
  obtain ⟨hbefore, hafter⟩ := of_decide_eq_true hlast
  rw [← List.dropLast_append_getLast? l hl] at hrun
  exact ⟨labels.dropLast, l, c, hrun, hbefore, hafter,
    (replaced_by_own_failure hrun).1 0 hbefore hafter⟩

end Interference

end FastAdHunter.Dns.Exchange
