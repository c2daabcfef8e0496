import FastAdHunter.Dns.RefreshQuestion
import FastAdHunter.Dns.Serving

/-!
# One refresh for each stale entry

A stale hit claims the refresh of its entry by a deadline in the entry; the
claimed job goes through the queue to a worker, or back at once when the queue is
full. A store, a cooldown and a release name only the key, so the end of an older
claim can act on a newer entry. A ledger beside the state says which jobs are
open and where, which were claimed before the last insertion of their key, and
how the others ended.
-/

namespace FastAdHunter.Dns

open Lib
open List hiding after next lookup map

/-- A claimed refresh: its key, the step that claimed it, and the end of its
lease. -/
structure Job where
  key : CacheKey
  born : Nat
  deadline : Nat
  deriving DecidableEq

/-- With whom a job is. -/
inductive Place where
  | held (thread : Nat)
  | queued
  deriving DecidableEq

inductive Ending where
  | replaced
  | cooldown
  | released
  deriving DecidableEq

/-- The jobs of a run: how many steps there were, at which step each key was last
inserted, the open jobs with their places, all that were claimed, and how those
that ended did. -/
structure Ledger where
  ticks : Nat
  inserted : CacheKey → Nat
  jobs : List (Job × Place)
  claimed : List Job
  ended : List (Job × Ending)

namespace Ledger

def empty : Ledger := ⟨0, fun _ => 0, [], [], []⟩

variable (g : Ledger)

/-- The open jobs at a place, in order. -/
def jobsAt (place : Place) : List Job :=
  (g.jobs.filter fun a => a.2 = place).map (·.1)

/-- The first job of a place goes to another. -/
def move (source target : Place) : Ledger :=
  match g.jobs.find? fun a => a.2 = source with
  | some a =>
    { g with jobs := (g.jobs.eraseP fun a => a.2 = source) ++ [(a.1, target)] }
  | none => g

def finish (thread : Nat) (ending : Ending) : Ledger :=
  match g.jobs.find? fun a => a.2 = .held thread with
  | some a =>
    { g with
      jobs := g.jobs.eraseP fun a => a.2 = .held thread
      ended := g.ended ++ [(a.1, ending)] }
  | none => g

def claim (thread : Nat) (key : CacheKey) (deadline : Nat) : Ledger :=
  { g with
    jobs := g.jobs ++ [(⟨key, g.ticks, deadline⟩, .held thread)]
    claimed := g.claimed ++ [⟨key, g.ticks, deadline⟩] }

def record {β : Type} (thread : Nat) (access : DnsAccess β) (result : β) (after : Serving) :
    Ledger :=
  match access with
  | .lookup key _ =>
    match result with
    | .stale _ true => g.claim thread key (after.now + after.cache.refreshClaimLease)
    | _ => g
  | .trySend _ => if result then g.move (.held thread) .queued else g
  | .recv => if result.isSome then g.move .queued (.held thread) else g
  | .store key _ =>
    if result then
      { g.finish thread .replaced with
        inserted := Function.update g.inserted key (g.ticks + 1) }
    else g
  | .suppressRefresh _ => g.finish thread .cooldown
  | .releaseRefreshClaim _ => g.finish thread .released
  | _ => g

lemma record_lookup (h : ∀ answer, found ≠ .stale answer true) (after : Serving) :
    g.record thread (.lookup key claimRefresh) found after = g := by
  cases found with
  | stale answer claimed =>
    cases claimed with
    | true => exact absurd rfl (h answer)
    | false => rfl
  | fresh answer remaining => rfl
  | miss => rfl

/-- The job was claimed since the last insertion of its key. -/
def Current (j : Job) : Prop := g.inserted j.key ≤ j.born

instance (j : Job) : Decidable (g.Current j) := inferInstanceAs (Decidable (_ ≤ _))

/-- At most one open job for each key was claimed since its last insertion. -/
def AtMostOne : Prop :=
  ∀ key, g.jobs.countP (fun a => a.1.key = key ∧ g.Current a.1) ≤ 1

end Ledger

/-- The ledger after one more step. -/
def note (l : Label DnsAccess Serving) (g : Ledger) : Ledger :=
  { g.record l.thread l.access.2 l.result l.after with ticks := g.ticks + 1 }

/-- The steps of a run, each with the ledger before and after it. -/
def noted (labels : List (Label DnsAccess Serving)) : List (Label DnsAccess (Serving × Ledger)) :=
  annotate note .empty labels

/-- At this step every open job is within its lease. -/
def TimelyStep (m : Label DnsAccess (Serving × Ledger)) : Prop :=
  ∀ a ∈ m.before.2.jobs, m.after.1.now < a.1.deadline

instance (m : Label DnsAccess (Serving × Ledger)) : Decidable (TimelyStep m) :=
  inferInstanceAs (Decidable (∀ a ∈ m.before.2.jobs, m.after.1.now < a.1.deadline))

/-- The thread holds a job of this key that was claimed since its last
insertion. -/
def HoldsCurrent (g : Ledger) (thread : Nat) (key : CacheKey) : Prop :=
  ((g.jobs.find? fun a => a.2 = .held thread).any fun a =>
    a.1.key = key ∧ g.Current a.1) = true

instance (g : Ledger) (thread : Nat) (key : CacheKey) : Decidable (HoldsCurrent g thread key) :=
  inferInstanceAs (Decidable (_ = true))

/-- A release is of a claim taken since the last insertion of the key, and so is a
cooldown, or else the cooldown is no shorter than a lease. -/
def EndsOwnClaim (m : Label DnsAccess (Serving × Ledger)) : Prop :=
  match m.access with
  | ⟨_, .releaseRefreshClaim key⟩ => HoldsCurrent m.before.2 m.thread key
  | ⟨_, .suppressRefresh key⟩ => HoldsCurrent m.before.2 m.thread key ∨
      m.before.1.cache.refreshClaimLease ≤ refreshFailureCooldown
  | _ => True

instance (m : Label DnsAccess (Serving × Ledger)) : Decidable (EndsOwnClaim m) := by
  unfold EndsOwnClaim
  split <;> infer_instance

section Places

variable {g : Ledger}

lemma find_eraseP_perm {l : List α} (h : l.find? p = some a) : l.Perm (a :: l.eraseP p) := by
  obtain ⟨ha, first, last, rfl, hfirst⟩ := find?_eq_some_iff_append.mp h
  have hnone : ∀ b ∈ first, ¬ p b = true := fun b hb => by simpa using hfirst b hb
  rw [eraseP_append_right _ hnone, eraseP_cons_of_pos ha]
  exact perm_middle

lemma Ledger.move_jobs (source target : Place) :
    ((g.move source target).jobs.map (·.1)).Perm (g.jobs.map (·.1)) := by
  unfold Ledger.move
  split
  next a ha =>
    have hperm := (find_eraseP_perm ha).map (·.1)
    refine List.Perm.trans ?_ hperm.symm
    rw [map_append]
    exact perm_append_singleton _ _
  next => exact .refl _

lemma Ledger.finish_jobs (thread : Nat) (ending : Ending) :
    ((g.finish thread ending).jobs.map (·.1)).Subperm (g.jobs.map (·.1)) := by
  unfold Ledger.finish
  split
  · exact (eraseP_sublist.map _).subperm
  · exact .refl _

lemma countP_jobs (jobs : List (Job × Place)) (p : Job → Bool) :
    jobs.countP (fun a => p a.1) = (jobs.map (·.1)).countP p := by
  rw [countP_map]
  rfl

end Places

section Entries

variable {layout : Layout} (cache : DnsCache)

lemma entryOf_onShard (i : Fin shardCount) (f : Shard → Shard) (key : CacheKey) :
    (cache.onShard i f).entryOf key =
      if cache.shardIndex key = i then (f (cache.shards i)).map.lookup key
      else cache.entryOf key := by
  split
  next hi =>
    subst hi
    exact congrArg (fun shard : Shard => shard.map.lookup key) (cache.onShard_same _ f)
  next hi =>
    exact congrArg (fun shard : Shard => shard.map.lookup key) (cache.onShard_other hi f)

lemma entryOf_modify (key : CacheKey) (f : Entry → Entry) (key' : CacheKey) :
    (cache.onShard (cache.shardIndex key) fun shard =>
        { shard with map := shard.map.modify key f }).entryOf key' =
      if key' = key then (cache.entryOf key).map f else cache.entryOf key' := by
  rw [entryOf_onShard]
  rw [Table.lookup_modify]
  by_cases hkey : key' = key
  · rw [if_pos hkey, if_pos hkey, if_pos (congrArg _ hkey)]
    rfl
  · rw [if_neg hkey, if_neg hkey]
    split
    next hi =>
      unfold DnsCache.entryOf
      rw [hi]
    next => rfl

lemma remove_lookup (shard : Shard) (key key' : CacheKey) :
    (shard.remove layout key).map.lookup key' = shard.map.lookup key' ∨
      (shard.remove layout key).map.lookup key' = none := by
  unfold Shard.remove
  split
  next entry hentry =>
    by_cases hkey : key' = key
    · subst hkey
      exact .inr (AList.lookup_erase _ _)
    · exact .inl (AList.lookup_erase_ne hkey)
  next => exact .inl rfl

lemma evictOldest_lookup (shard : Shard) (key : CacheKey) :
    (shard.evictOldest layout).map.lookup key = shard.map.lookup key ∨
      (shard.evictOldest layout).map.lookup key = none := by
  unfold Shard.evictOldest
  split
  · exact @remove_lookup layout { shard with queue := _ } _ key
  · split
    · exact @remove_lookup layout { shard with queue := _ } _ key
    · exact .inl rfl

lemma evictOver_lookup (fuel : Nat) (shard : Shard) (key : CacheKey) :
    (Shard.evictOver layout fuel shard).map.lookup key = shard.map.lookup key ∨
      (Shard.evictOver layout fuel shard).map.lookup key = none := by
  induction fuel generalizing shard with
  | zero => exact .inl rfl
  | succ fuel ih =>
    rw [Shard.evictOver]
    split
    · rcases ih (shard.evictOldest layout) with hsame | hnone
      · rw [hsame]
        exact evictOldest_lookup shard key
      · exact .inr hnone
    · exact .inl rfl

lemma compact_map (shard : Shard) : shard.compact.map = shard.map := by
  unfold Shard.compact
  split <;> rfl

lemma insert_lookup (shard : Shard) (hne : key' ≠ key)
    (answer : CachedAnswer) (ttlSeconds now : Nat) :
    (shard.insert layout key answer ttlSeconds now).map.lookup key' = shard.map.lookup key' ∨
      (shard.insert layout key answer ttlSeconds now).map.lookup key' = none := by
  have hput : (shard.put layout key answer ttlSeconds now).map.lookup key' =
      shard.map.lookup key' := AList.lookup_insert_ne hne
  rw [Shard.insert, compact_map, ← hput]
  exact evictOver_lookup _ _ _

lemma entryOf_store (hne : key' ≠ key) (response : Message) (now : Nat) :
    (cache.store layout key response now).2.entryOf key' = cache.entryOf key' ∨
      (cache.store layout key response now).2.entryOf key' = none := by
  unfold DnsCache.store
  split
  next answer ttl _ =>
    rw [DnsCache.insert, entryOf_onShard]
    split
    next hi =>
      unfold DnsCache.entryOf
      rw [hi]
      exact insert_lookup _ hne answer ttl now
    next => exact .inl rfl
  next => exact .inl rfl

lemma store_eq_of_false (h : (cache.store layout key response now).1 = false) :
    (cache.store layout key response now).2 = cache := by
  unfold DnsCache.store at h ⊢
  split
  next hstored => simp [hstored] at h
  next => rfl

lemma entryOf_cleanShard (i : Fin shardCount) (purgeStale : Bool) (now : Nat) (key : CacheKey) :
    (cache.cleanShard layout i purgeStale now).entryOf key = cache.entryOf key ∨
      (cache.cleanShard layout i purgeStale now).entryOf key = none := by
  rw [DnsCache.cleanShard, entryOf_onShard]
  split
  next hi =>
    have hmap : ((cache.shards i).clean layout cache.serveStale purgeStale now).map =
        (cache.shards i).map.retain (Shard.keeps cache.serveStale purgeStale now) := by
      unfold Shard.clean
      dsimp only
      split <;> rfl
    rw [hmap, Table.lookup_retain, DnsCache.entryOf, hi]
    cases (cache.shards i).map.lookup key with
    | none => exact .inl rfl
    | some entry =>
      rw [Option.filter_some]
      split
      · exact .inl rfl
      · exact .inr rfl
  next => exact .inl rfl

lemma lookupInner_cases (key : CacheKey) (claimRefresh : Bool) (now : Nat) :
    (claimRefresh = true ∧
      (∃ answer, (cache.lookupInner key claimRefresh now).1 = .stale answer true) ∧
      (∃ entry, cache.entryOf key = some entry ∧ entry.suppressed now = false) ∧
      (cache.lookupInner key claimRefresh now).2 =
        cache.suppressRefresh key cache.refreshClaimLease now) ∨
    ((∀ answer, (cache.lookupInner key claimRefresh now).1 ≠ .stale answer true) ∧
      (cache.lookupInner key claimRefresh now).2 = cache) := by
  unfold DnsCache.lookupInner
  split
  · exact .inr ⟨fun _ h => Lookup.noConfusion h, rfl⟩
  next entry hentry =>
    split
    · exact .inr ⟨fun _ h => Lookup.noConfusion h, rfl⟩
    · split
      · dsimp only
        cases hclaimed : claimRefresh && !entry.suppressed now with
        | true =>
          rw [Bool.and_eq_true, Bool.not_eq_true'] at hclaimed
          exact .inl ⟨hclaimed.1, ⟨_, rfl⟩, ⟨entry, hentry, hclaimed.2⟩, rfl⟩
        | false =>
          refine .inr ⟨fun answer h => ?_, rfl⟩
          simp at h
      · exact .inr ⟨fun _ h => Lookup.noConfusion h, rfl⟩

end Entries

section Guarding

variable {layout : Layout} {s t : Serving} {g g' : Ledger}

/-- The deadline of an entry covers the leases of the jobs claimed since it was
inserted, and there is at most one of those. -/
structure Guarded (s : Serving) (g : Ledger) : Prop where
  born_lt : ∀ a ∈ g.jobs, a.1.born < g.ticks
  inserted_le : ∀ key, g.inserted key ≤ g.ticks
  deadline_le : ∀ a ∈ g.jobs, a.1.deadline ≤ s.now + s.cache.refreshClaimLease
  covered : ∀ a ∈ g.jobs, g.Current a.1 → ∀ entry, s.cache.entryOf a.1.key = some entry →
    ∃ deadline, entry.refreshSuppressedUntil = some deadline ∧ a.1.deadline ≤ deadline
  one : g.AtMostOne

lemma Guarded.of_fewer (h : Guarded s g)
    (hjobs : (g'.jobs.map (·.1)).Subperm (g.jobs.map (·.1))) (hticks : g.ticks ≤ g'.ticks)
    (hinserted : ∀ key, g.inserted key ≤ g'.inserted key)
    (hinserted' : ∀ key, g'.inserted key ≤ g'.ticks) (hnow : s.now ≤ t.now)
    (hlease : t.cache.refreshClaimLease = s.cache.refreshClaimLease)
    (hentries : ∀ a ∈ g'.jobs, g'.Current a.1 → ∀ entry', t.cache.entryOf a.1.key = some entry' →
      s.cache.entryOf a.1.key = some entry' ∨
        ∃ deadline, entry'.refreshSuppressedUntil = some deadline ∧ a.1.deadline ≤ deadline) :
    Guarded t g' := by
  have hmem : ∀ a ∈ g'.jobs, ∃ b ∈ g.jobs, b.1 = a.1 := by
    intro a ha
    obtain ⟨b, hb, heq⟩ := mem_map.mp (hjobs.subset (mem_map_of_mem ha))
    exact ⟨b, hb, heq⟩
  refine ⟨?_, hinserted', ?_, ?_, ?_⟩
  · intro a ha
    obtain ⟨b, hb, heq⟩ := hmem a ha
    exact heq ▸ Nat.lt_of_lt_of_le (h.born_lt b hb) hticks
  · intro a ha
    obtain ⟨b, hb, heq⟩ := hmem a ha
    have := heq ▸ h.deadline_le b hb
    omega
  · intro a ha hcurrent entry' hentry'
    rcases hentries a ha hcurrent entry' hentry' with hsame | hlate
    · obtain ⟨b, hb, heq⟩ := hmem a ha
      have hcovered := h.covered b hb
      rw [heq] at hcovered
      exact hcovered (Nat.le_trans (hinserted _) hcurrent) entry' hsame
    · exact hlate
  · intro key
    refine Nat.le_trans ?_ (h.one key)
    rw [countP_jobs g'.jobs (fun j => j.key = key ∧ g'.Current j),
      countP_jobs g.jobs (fun j => j.key = key ∧ g.Current j)]
    refine Nat.le_trans (hjobs.countP_le _) (countP_mono_left fun j _ hj => ?_)
    rw [decide_eq_true_eq] at hj ⊢
    exact ⟨hj.1, Nat.le_trans (hinserted _) hj.2⟩

lemma serve_clock (h : serve layout access x s = some (b, t)) :
    s.now ≤ t.now ∧ t.cache.refreshClaimLease = s.cache.refreshClaimLease := by
  cases access with
  | lookup key claimRefresh =>
    obtain ⟨-, rfl⟩ := h
    refine ⟨Nat.le_add_right _ _, ?_⟩
    rcases lookupInner_cases s.cache key claimRefresh (s.now + x.elapsed) with hc | hc
    · exact (congrArg DnsCache.refreshClaimLease hc.2.2.2).trans rfl
    · exact congrArg DnsCache.refreshClaimLease hc.2
  | store key response =>
    simp only [serve] at h
    obtain ⟨-, rfl⟩ := h
    refine ⟨Nat.le_add_right _ _, ?_⟩
    unfold DnsCache.store
    split <;> rfl
  | trySend key =>
    simp only [serve] at h
    split at h
    all_goals
      cases h
      exact ⟨Nat.le_add_right _ _, rfl⟩
  | recv =>
    simp only [serve] at h
    split at h
    · cases h
      exact ⟨Nat.le_add_right _ _, rfl⟩
    · split at h
      · cases h
        exact ⟨Nat.le_add_right _ _, rfl⟩
      · cases h
  | _ =>
    cases h
    exact ⟨Nat.le_add_right _ _, rfl⟩

lemma Guarded.of_losses (h : Guarded s g)
    (hjobs : (g'.jobs.map (·.1)).Subperm (g.jobs.map (·.1))) (hticks : g'.ticks = g.ticks + 1)
    (hinserted : g'.inserted = g.inserted) (hclock : s.now ≤ t.now ∧
      t.cache.refreshClaimLease = s.cache.refreshClaimLease)
    (hentries : ∀ key, t.cache.entryOf key = s.cache.entryOf key ∨ t.cache.entryOf key = none) :
    Guarded t g' := by
  refine h.of_fewer hjobs (by omega) (fun key => by rw [hinserted]) (fun key => ?_) hclock.1
    hclock.2 fun a _ _ entry' hentry' => ?_
  · rw [hinserted, hticks]
    exact Nat.le_succ_of_le (h.inserted_le key)
  · rcases hentries a.1.key with hsame | hnone
    · exact .inl (hsame ▸ hentry')
    · simp [hnone] at hentry'

lemma Guarded.claim (h : Guarded s g) (thread : Nat)
    (hentry : s.cache.entryOf key = some entry) (hfree : entry.suppressed t.now = false)
    (htimely : ∀ a ∈ g.jobs, t.now < a.1.deadline)
    (hclock : s.now ≤ t.now ∧ t.cache.refreshClaimLease = s.cache.refreshClaimLease)
    (hcache : t.cache = s.cache.suppressRefresh key s.cache.refreshClaimLease t.now)
    (hjobs : g'.jobs =
      g.jobs ++ [(⟨key, g.ticks, t.now + t.cache.refreshClaimLease⟩, .held thread)])
    (hticks : g'.ticks = g.ticks + 1) (hinserted : g'.inserted = g.inserted) : Guarded t g' := by
  have hcurrent : ∀ j, g'.Current j ↔ g.Current j := by
    intro j
    rw [Ledger.Current, Ledger.Current, hinserted]
  have hnone : ∀ a ∈ g.jobs, a.1.key = key → ¬ g.Current a.1 := by
    intro a ha hkey hcur
    obtain ⟨deadline, hdeadline, hle⟩ := h.covered a ha hcur entry (hkey ▸ hentry)
    have hlate := htimely a ha
    simp only [Entry.suppressed, hdeadline, Option.any_some, decide_eq_false_iff_not] at hfree
    omega
  have hentries := entryOf_modify s.cache key fun e =>
    { e with refreshSuppressedUntil := some (t.now + s.cache.refreshClaimLease) }
  have hafter : ∀ key', t.cache.entryOf key' =
      if key' = key then (s.cache.entryOf key).map fun e =>
        { e with refreshSuppressedUntil := some (t.now + s.cache.refreshClaimLease) }
      else s.cache.entryOf key' := by
    intro key'
    rw [hcache]
    exact hentries key'
  refine ⟨?_, ?_, ?_, ?_, ?_⟩
  · intro a ha
    rw [hjobs, mem_append, mem_singleton] at ha
    rw [hticks]
    rcases ha with ha | rfl
    · exact Nat.lt_succ_of_lt (h.born_lt a ha)
    · exact Nat.lt_succ_self _
  · intro key'
    rw [hinserted, hticks]
    exact Nat.le_succ_of_le (h.inserted_le key')
  · intro a ha
    rw [hjobs, mem_append, mem_singleton] at ha
    rcases ha with ha | rfl
    · have := h.deadline_le a ha
      omega
    · exact Nat.le_refl _
  · intro a ha hcur entry' hentry'
    rw [hcurrent] at hcur
    rw [hjobs, mem_append, mem_singleton] at ha
    rcases ha with ha | rfl
    · have hkey : a.1.key ≠ key := fun hkey => hnone a ha hkey hcur
      rw [hafter, if_neg hkey] at hentry'
      exact h.covered a ha hcur entry' hentry'
    · rw [hafter, if_pos rfl, hentry] at hentry'
      cases hentry'
      exact ⟨_, rfl, by rw [hclock.2]⟩
  · intro key'
    rw [hjobs, countP_append]
    have hold : g.jobs.countP (fun a => a.1.key = key' ∧ g'.Current a.1) =
        g.jobs.countP (fun a => a.1.key = key' ∧ g.Current a.1) := by
      simp only [hcurrent]
    rw [hold]
    by_cases hkey : key' = key
    · subst hkey
      have hzero : g.jobs.countP (fun a => a.1.key = key' ∧ g.Current a.1) = 0 := by
        rw [countP_eq_zero]
        intro a ha hboth
        rw [decide_eq_true_eq] at hboth
        exact hnone a ha hboth.1 hboth.2
      rw [hzero, Nat.zero_add]
      exact countP_le_length
    · rw [countP_singleton, if_neg (by simp [Ne.symm hkey]), Nat.add_zero]
      exact h.one key'

lemma Guarded.insert (h : Guarded s g) (key : CacheKey)
    (hjobs : (g'.jobs.map (·.1)).Subperm (g.jobs.map (·.1))) (hticks : g'.ticks = g.ticks + 1)
    (hinserted : g'.inserted = Function.update g.inserted key (g.ticks + 1))
    (hclock : s.now ≤ t.now ∧ t.cache.refreshClaimLease = s.cache.refreshClaimLease)
    (hentries : ∀ key', key' ≠ key → t.cache.entryOf key' = s.cache.entryOf key' ∨
      t.cache.entryOf key' = none) : Guarded t g' := by
  have hkey : g'.inserted key = g.ticks + 1 := by simp [hinserted]
  have hother : ∀ key', key' ≠ key → g'.inserted key' = g.inserted key' := by
    intro key' hne
    simp [hinserted, hne]
  refine h.of_fewer hjobs (by omega) (fun key' => ?_) (fun key' => ?_) hclock.1 hclock.2
    fun a ha hcurrent entry' hentry' => ?_
  · by_cases hne : key' = key
    · rw [hne, hkey]
      exact Nat.le_succ_of_le (h.inserted_le key)
    · rw [hother key' hne]
  · by_cases hne : key' = key
    · rw [hne, hkey, hticks]
    · rw [hother key' hne, hticks]
      exact Nat.le_succ_of_le (h.inserted_le key')
  · by_cases hne : a.1.key = key
    · obtain ⟨b, hb, heq⟩ := mem_map.mp (hjobs.subset (mem_map_of_mem ha))
      have hborn := h.born_lt b hb
      rw [Ledger.Current, hne, hkey, ← heq] at hcurrent
      omega
    · rcases hentries a.1.key hne with hsame | hnone
      · exact .inl (hsame ▸ hentry')
      · simp [hnone] at hentry'

/-- The end of a claim by a cooldown or a release. Either no job of the key
claimed since its last insertion stays open, or the new deadline is no earlier
than any lease. -/
lemma Guarded.ending (h : Guarded s g) (key : CacheKey)
    (hjobs : (g'.jobs.map (·.1)).Subperm (g.jobs.map (·.1))) (hticks : g'.ticks = g.ticks + 1)
    (hinserted : g'.inserted = g.inserted)
    (hclock : s.now ≤ t.now ∧ t.cache.refreshClaimLease = s.cache.refreshClaimLease)
    (hcache : t.cache = s.cache.onShard (s.cache.shardIndex key) fun shard =>
      { shard with
        map := shard.map.modify key fun e => { e with refreshSuppressedUntil := deadline } })
    (hown : (∀ a ∈ g'.jobs, a.1.key = key → ¬ g.Current a.1) ∨
      ∃ late, deadline = some late ∧ t.now + s.cache.refreshClaimLease ≤ late) :
    Guarded t g' := by
  refine h.of_fewer hjobs (by omega) (fun key' => by rw [hinserted]) (fun key' => ?_) hclock.1
    hclock.2 fun a ha hcurrent entry' hentry' => ?_
  · rw [hinserted, hticks]
    exact Nat.le_succ_of_le (h.inserted_le key')
  · rw [hcache, entryOf_modify] at hentry'
    split at hentry'
    next hkey =>
      rcases hown with hnone | ⟨late, rfl, hlate⟩
      · refine absurd ?_ (hnone a ha hkey)
        rw [Ledger.Current, hinserted] at hcurrent
        exact hcurrent
      · obtain ⟨entry, -, rfl⟩ := Option.map_eq_some_iff.mp hentry'
        obtain ⟨b, hb, heq⟩ := mem_map.mp (hjobs.subset (mem_map_of_mem ha))
        have := heq ▸ h.deadline_le b hb
        exact .inr ⟨late, rfl, by omega⟩
    next => exact .inl hentry'

lemma Ledger.finish_inserted (thread : Nat) (ending : Ending) :
    (g.finish thread ending).inserted = g.inserted := by
  unfold Ledger.finish
  split <;> rfl

lemma Ledger.move_inserted (source target : Place) :
    (g.move source target).inserted = g.inserted := by
  unfold Ledger.move
  split <;> rfl

lemma none_current_of_own (h : g.AtMostOne) (hown : HoldsCurrent g thread key) (ending : Ending) :
    ∀ a ∈ (g.finish thread ending).jobs, a.1.key = key → ¬ g.Current a.1 := by
  obtain ⟨b, hb, hcur⟩ := (Option.any_eq_true _ _).mp hown
  have hperm := find_eraseP_perm hb
  have hone := h key
  rw [hperm.countP_eq, countP_cons_of_pos (by simpa using hcur)] at hone
  intro a ha hkey hcurrent
  have hfinish : (g.finish thread ending).jobs = g.jobs.eraseP fun a => a.2 = .held thread := by
    simp [Ledger.finish, hb]
  rw [hfinish] at ha
  have hpos : 0 < (g.jobs.eraseP fun a => a.2 = .held thread).countP
      (fun a => a.1.key = key ∧ g.Current a.1) :=
    countP_pos_iff.mpr ⟨a, ha, by simpa using ⟨hkey, hcurrent⟩⟩
  omega

lemma Guarded.of_idle (h : Guarded s g) {b : β} (hrecord : g.record thread access b t = g)
    (hclock : s.now ≤ t.now ∧ t.cache.refreshClaimLease = s.cache.refreshClaimLease)
    (hentries : ∀ key, t.cache.entryOf key = s.cache.entryOf key ∨ t.cache.entryOf key = none) :
    Guarded t (note ⟨thread, ⟨β, access⟩, b, s, t⟩ g) := by
  refine h.of_losses ?_ rfl ?_ hclock hentries
  · rw [note, hrecord]
  · rw [note, hrecord]

/-- **One step.** -/
theorem guarded_step (m : Label DnsAccess (Serving × Ledger)) (x : Chance)
    (h : Guarded m.before.1 m.before.2) (hstep : TimelyStep m ∧ EndsOwnClaim m)
    (hrun : ((machine layout).ghost note).run m.access.2 m.thread x m.before =
      some (m.result, m.after)) : Guarded m.after.1 m.after.2 := by
  obtain ⟨thread, ⟨β, access⟩, b, ⟨s, g⟩, ⟨t, g'⟩⟩ := m
  obtain ⟨hserve, hnote⟩ := Machine.ghost_run hrun
  obtain ⟨htimely, hown⟩ := hstep
  change g' = note ⟨thread, ⟨β, access⟩, b, s, t⟩ g at hnote
  subst hnote
  change serve layout access x s = some (b, t) at hserve
  have hclock := serve_clock hserve
  cases access with
  | lookup key claimRefresh =>
    simp only [serve, Option.some.injEq, Prod.mk.injEq] at hserve
    obtain ⟨hfound', rfl⟩ := hserve
    rcases lookupInner_cases s.cache key claimRefresh (s.now + x.elapsed) with
      ⟨-, ⟨answer, hfound⟩, ⟨entry, hentry, hfree⟩, hcache⟩ | ⟨hfound, hcache⟩
    · obtain rfl : b = .stale answer true := hfound'.symm.trans hfound
      exact h.claim thread hentry hfree htimely hclock hcache rfl rfl rfl
    · refine h.of_idle (g.record_lookup (hfound' ▸ hfound) _) hclock fun key' => .inl ?_
      exact congrArg (DnsCache.entryOf · key') hcache
  | store key response =>
    simp only [serve, Option.some.injEq, Prod.mk.injEq] at hserve
    obtain ⟨hstored, rfl⟩ := hserve
    cases b with
    | true =>
      refine h.insert key ?_ rfl rfl hclock fun key' hne => ?_
      · exact g.finish_jobs thread .replaced
      · exact entryOf_store s.cache hne response _
    | false =>
      refine h.of_idle rfl hclock fun key' => .inl ?_
      exact congrArg (DnsCache.entryOf · key') (store_eq_of_false s.cache hstored)
  | suppressRefresh key =>
    cases hserve
    refine h.ending key ?_ rfl ?_ hclock rfl ?_
    · exact g.finish_jobs thread .cooldown
    · exact g.finish_inserted thread .cooldown
    · rcases hown with hown | hlease
      · exact .inl (none_current_of_own h.one hown .cooldown)
      · exact .inr ⟨_, rfl, Nat.add_le_add_left hlease _⟩
  | releaseRefreshClaim key =>
    cases hserve
    refine h.ending key ?_ rfl ?_ hclock rfl ?_
    · exact g.finish_jobs thread .released
    · exact g.finish_inserted thread .released
    · exact .inl (none_current_of_own h.one hown .released)
  | trySend key =>
    simp only [serve] at hserve
    split at hserve
    · cases hserve
      exact h.of_idle rfl hclock fun key' => .inl rfl
    · cases hserve
      refine h.of_losses ?_ rfl ?_ hclock fun key' => .inl rfl
      · exact (g.move_jobs (.held thread) .queued).subperm
      · exact g.move_inserted (.held thread) .queued
  | recv =>
    simp only [serve] at hserve
    split at hserve
    · cases hserve
      refine h.of_losses ?_ rfl ?_ hclock fun key' => .inl rfl
      · exact (g.move_jobs .queued (.held thread)).subperm
      · exact g.move_inserted .queued (.held thread)
    · split at hserve
      · cases hserve
        exact h.of_idle rfl hclock fun key' => .inl rfl
      · cases hserve
  | forward request =>
    cases hserve
    exact h.of_idle rfl hclock fun key' => .inl rfl
  | cleanShard i purgeStale =>
    cases hserve
    exact h.of_idle rfl hclock fun key' => entryOf_cleanShard s.cache i purgeStale _ key'

end Guarding

section Keeping

variable {layout : Layout} {g : Ledger}

lemma filter_eraseP_self (p : α → Bool) (l : List α) :
    (l.eraseP p).filter p = (l.filter p).tail := by
  induction l with
  | nil => rfl
  | cons a l ih =>
    cases hp : p a with
    | true => simp [hp]
    | false => simp [hp, ih]

lemma filter_eraseP_other {p q : α → Bool} (h : ∀ a, q a = true → p a = false)
    (l : List α) : (l.eraseP p).filter q = l.filter q := by
  induction l with
  | nil => rfl
  | cons a l ih =>
    cases hp : p a with
    | true =>
      have hq : q a = false := by
        cases hq : q a with
        | true => rw [h a hq] at hp; cases hp
        | false => rfl
      simp [hp, hq]
    | false => simp [hp, filter_cons, ih]

variable {j : Job} {rest : List Job}

lemma Ledger.find_of_jobsAt (h : g.jobsAt place = j :: rest) :
    g.jobs.find? (fun a => a.2 = place) = some (j, place) := by
  unfold Ledger.jobsAt at h
  rw [← head?_filter]
  cases hf : g.jobs.filter (fun a => a.2 = place) with
  | nil => simp [hf] at h
  | cons a l =>
    have ha := (mem_filter.mp (hf ▸ mem_cons_self : a ∈ g.jobs.filter _)).2
    simp only [hf, map_cons, List.cons.injEq] at h
    rw [decide_eq_true_eq] at ha
    rw [head?_cons, ← h.1, ← ha]

lemma Ledger.find_of_jobsAt_nil (h : g.jobsAt place = []) :
    g.jobs.find? (fun a => a.2 = place) = none := by
  rw [← head?_filter, map_eq_nil_iff.mp h]
  rfl

lemma Ledger.jobsAt_move (h : g.jobsAt source = j :: rest) (hne : source ≠ target) (place : Place) :
    (g.move source target).jobsAt place = if place = source then rest
      else if place = target then g.jobsAt target ++ [j] else g.jobsAt place := by
  have hjobs : (g.move source target).jobs =
      (g.jobs.eraseP fun a => a.2 = source) ++ [(j, target)] := by
    simp [Ledger.move, Ledger.find_of_jobsAt h]
  have hself := filter_eraseP_self (fun a : Job × Place => decide (a.2 = source)) g.jobs
  have hother : place ≠ source → (g.jobs.eraseP fun a => a.2 = source).filter
      (fun a => a.2 = place) = g.jobs.filter fun a => a.2 = place := by
    intro hplace
    refine filter_eraseP_other (fun a ha => ?_) g.jobs
    rw [decide_eq_true_eq] at ha
    rw [decide_eq_false_iff_not, ha]
    exact hplace
  unfold Ledger.jobsAt at h ⊢
  rw [hjobs, filter_append, map_append]
  by_cases hsource : place = source
  · subst hsource
    rw [if_pos rfl, hself, map_tail, h, filter_cons_of_neg (by simpa using hne.symm)]
    simp
  · rw [if_neg hsource, hother hsource]
    by_cases htarget : place = target
    · subst htarget
      simp
    · rw [if_neg htarget, filter_cons_of_neg (by simpa using Ne.symm htarget)]
      simp

lemma Ledger.jobsAt_finish
    (h : g.jobsAt (.held thread) = j :: rest) (ending : Ending) (place : Place) :
    (g.finish thread ending).jobsAt place =
      if place = .held thread then rest else g.jobsAt place := by
  have hjobs : (g.finish thread ending).jobs =
      g.jobs.eraseP fun a => a.2 = .held thread := by
    simp [Ledger.finish, Ledger.find_of_jobsAt h]
  have hself := filter_eraseP_self (fun a : Job × Place => decide (a.2 = .held thread)) g.jobs
  unfold Ledger.jobsAt at h ⊢
  rw [hjobs]
  split
  next hplace =>
    subst hplace
    rw [hself, map_tail, h, tail_cons]
  next hplace =>
    rw [filter_eraseP_other (fun a ha => ?_) g.jobs]
    rw [decide_eq_true_eq] at ha
    rw [decide_eq_false_iff_not, ha]
    exact hplace

lemma Ledger.finish_of_nil (h : g.jobsAt (.held thread) = []) (ending : Ending) :
    g.finish thread ending = g := by
  simp [Ledger.finish, Ledger.find_of_jobsAt_nil h]

/-- Every claim is open or has ended. -/
def Ledger.Accounts (g : Ledger) : Prop :=
  ∀ j ∈ g.claimed, (∃ place, (j, place) ∈ g.jobs) ∨ ∃ ending, (j, ending) ∈ g.ended

lemma Ledger.Accounts.move (h : g.Accounts) (source target : Place) :
    (g.move source target).Accounts := by
  unfold Ledger.move
  split
  next a ha =>
    have hperm := find_eraseP_perm ha
    intro j hj
    refine (h j hj).imp_left fun ⟨place, hmem⟩ => ?_
    rcases mem_cons.mp (hperm.mem_iff.mp hmem) with heq | hrest
    · refine ⟨target, mem_append_right _ ?_⟩
      rw [← heq]
      exact mem_singleton_self _
    · exact ⟨place, mem_append_left _ hrest⟩
  next => exact h

lemma Ledger.Accounts.finish (h : g.Accounts) (thread : Nat) (ending : Ending) :
    (g.finish thread ending).Accounts := by
  unfold Ledger.finish
  split
  next a ha =>
    have hperm := find_eraseP_perm ha
    intro j hj
    rcases h j hj with ⟨place, hmem⟩ | ⟨ending', hmem⟩
    · rcases mem_cons.mp (hperm.mem_iff.mp hmem) with heq | hrest
      · refine .inr ⟨ending, mem_append_right _ ?_⟩
        rw [← heq]
        exact mem_singleton_self _
      · exact .inl ⟨place, hrest⟩
    · exact .inr ⟨ending', mem_append_left _ hmem⟩
  next => exact h

lemma Ledger.Accounts.claim (h : g.Accounts) (thread : Nat) (key : CacheKey) (deadline : Nat) :
    (g.claim thread key deadline).Accounts := by
  intro j hj
  rcases mem_append.mp hj with hold | hnew
  · exact (h j hold).imp_left fun ⟨place, hmem⟩ => ⟨place, mem_append_left _ hmem⟩
  · rw [mem_singleton.mp hnew]
    exact .inl ⟨.held thread, mem_append_right _ (mem_singleton_self _)⟩

/-- The queue of the ledger is the queue. -/
structure Kept (s : Serving × Ledger) : Prop where
  queue : (s.2.jobsAt .queued).map Job.key = s.1.pending
  accounts : s.2.Accounts

/-- A thread keeps its hands off the jobs of the others. -/
def SameHeld (i : Nat) (s t : Serving × Ledger) : Prop :=
  t.2.jobsAt (.held i) = s.2.jobsAt (.held i)

def OthersHeld (i : Nat) (s t : Serving × Ledger) : Prop :=
  ∀ j, j ≠ i → SameHeld j s t

lemma stable_sameHeld : Stable SameHeld where
  refl := fun _ _ => rfl
  trans := fun _ _ _ _ hst htu => htu.trans hst

/-- What a thread does with its jobs while the others keep to theirs. -/
abbrev Handles (layout : Layout) (i : Nat) {α : Type} (Q : α → Serving × Ledger → Prop) :
    Prog DnsAccess α → Serving × Ledger → Prop :=
  Holds ((machine layout).ghost note) Kept SameHeld OthersHeld i Q

variable {i : Nat} {α β : Type}

variable {access : DnsAccess β} {Q : α → Serving × Ledger → Prop} {s : Serving × Ledger}
  {mine : List Job} {request : Message}

lemma Handles.act (hmine : s.2.jobsAt (.held i) = mine)
    (h : ∀ s : Serving × Ledger, s.2.jobsAt (.held i) = mine → Kept s → ∀ x b t,
      serve layout access x s.1 = some (b, t) →
        OthersHeld i s (t, note ⟨i, ⟨β, access⟩, b, s.1, t⟩ s.2) ∧
        Kept (t, note ⟨i, ⟨β, access⟩, b, s.1, t⟩ s.2) ∧
        Handles layout i Q (next b) (t, note ⟨i, ⟨β, access⟩, b, s.1, t⟩ s.2)) :
    Handles layout i Q (.act access next) s := by
  intro s' hrely hkept x b t hrun
  obtain ⟨hserve, hnote⟩ := Machine.ghost_run hrun
  obtain ⟨t, g'⟩ := t
  change g' = note ⟨i, ⟨β, access⟩, b, s'.1, t⟩ s'.2 at hnote
  rw [hnote]
  exact h s' (hrely.trans hmine) hkept x b t hserve

structure SameJobs (g g' : Ledger) : Prop where
  jobs : g'.jobs = g.jobs
  claimed : g'.claimed = g.claimed
  ended : g'.ended = g.ended

lemma SameJobs.jobsAt (h : SameJobs g g') (place : Place) :
    g'.jobsAt place = g.jobsAt place := by
  rw [Ledger.jobsAt, Ledger.jobsAt, h.jobs]

lemma SameJobs.kept (h : SameJobs s.2 g')
    (hkept : Kept s) (hpending : t.pending = s.1.pending) : Kept (t, g') := by
  refine ⟨?_, fun j hj => ?_⟩
  · rw [h.jobsAt]
    exact hkept.queue.trans hpending.symm
  · rw [h.claimed] at hj
    rw [h.jobs, h.ended]
    exact hkept.accounts j hj

lemma Handles.idle (hmine : s.2.jobsAt (.held i) = mine)
    (hidle : ∀ (g : Ledger), g.jobsAt (.held i) = mine → ∀ s x b t,
      serve layout access x s = some (b, t) →
        t.pending = s.pending ∧ SameJobs g (g.record i access b t))
    (hnext : ∀ b (t : Serving × Ledger), t.2.jobsAt (.held i) = mine →
      Handles layout i Q (next b) t) : Handles layout i Q (.act access next) s := by
  refine Handles.act hmine fun s hmine hkept x b t hserve => ?_
  obtain ⟨hpending, hjobs⟩ := hidle s.2 hmine s.1 x b t hserve
  have hsame : SameJobs s.2 (note ⟨i, ⟨β, access⟩, b, s.1, t⟩ s.2) :=
    ⟨hjobs.jobs, hjobs.claimed, hjobs.ended⟩
  exact ⟨fun j _ => hsame.jobsAt _, hsame.kept hkept hpending,
    hnext b _ ((hsame.jobsAt _).trans hmine)⟩

lemma Handles.finished (ending : Ending) (hmine : s.2.jobsAt (.held i) = [j]) (hkept : Kept s)
    (hpending : t.pending = s.1.pending)
    (hjobs : SameJobs (s.2.finish i ending) (s.2.record i access b t))
    (hnext : ∀ s : Serving × Ledger, s.2.jobsAt (.held i) = [] → Handles layout i Q p s) :
    OthersHeld i s (t, note ⟨i, ⟨β, access⟩, b, s.1, t⟩ s.2) ∧
      Kept (t, note ⟨i, ⟨β, access⟩, b, s.1, t⟩ s.2) ∧
      Handles layout i Q p (t, note ⟨i, ⟨β, access⟩, b, s.1, t⟩ s.2) := by
  have hat : ∀ place, (note ⟨i, ⟨β, access⟩, b, s.1, t⟩ s.2).jobsAt place =
      if place = .held i then [] else s.2.jobsAt place := by
    intro place
    exact (hjobs.jobsAt place).trans (Ledger.jobsAt_finish hmine ending place)
  refine ⟨fun j hj => ?_, ⟨?_, ?_⟩, hnext _ ((hat _).trans (if_pos rfl))⟩
  · exact (hat _).trans (if_neg fun heq => hj (Place.held.inj heq))
  · exact (congrArg _ ((hat _).trans (if_neg (by simp)))).trans (hkept.queue.trans hpending.symm)
  · have haccounts := hkept.accounts.finish i ending
    intro j hj
    have hj' : j ∈ (s.2.finish i ending).claimed := hjobs.claimed ▸ hj
    refine (haccounts j hj').imp (fun ⟨place, hmem⟩ => ⟨place, ?_⟩)
      fun ⟨ending, hmem⟩ => ⟨ending, ?_⟩
    · exact hjobs.jobs.symm ▸ hmem
    · exact hjobs.ended.symm ▸ hmem

lemma Handles.moving (access : DnsAccess β) (b : β) (source target : Place) (t : Serving) (hkept : Kept s)
    (hsource : s.2.jobsAt source = j :: rest) (hne : source ≠ target)
    (hplaces : ∀ other, other ≠ i → source ≠ .held other ∧ target ≠ .held other)
    (hrecord : s.2.record i access b t = s.2.move source target)
    (hpending : (if .queued = source then rest
      else if .queued = target then s.2.jobsAt target ++ [j] else s.2.jobsAt .queued).map Job.key =
        t.pending) :
    OthersHeld i s (t, note ⟨i, ⟨β, access⟩, b, s.1, t⟩ s.2) ∧
      Kept (t, note ⟨i, ⟨β, access⟩, b, s.1, t⟩ s.2) ∧
      ∀ place, (note ⟨i, ⟨β, access⟩, b, s.1, t⟩ s.2).jobsAt place = if place = source then rest
        else if place = target then s.2.jobsAt target ++ [j] else s.2.jobsAt place := by
  have hjobs : ∀ place, (note ⟨i, ⟨β, access⟩, b, s.1, t⟩ s.2).jobsAt place =
      (s.2.move source target).jobsAt place := by
    intro place
    rw [note, hrecord]
    rfl
  have hat : ∀ place, (note ⟨i, ⟨β, access⟩, b, s.1, t⟩ s.2).jobsAt place =
      if place = source then rest
      else if place = target then s.2.jobsAt target ++ [j] else s.2.jobsAt place :=
    fun place => (hjobs place).trans (Ledger.jobsAt_move hsource hne place)
  refine ⟨fun other hother => ?_, ⟨?_, ?_⟩, hat⟩
  · obtain ⟨hs, ht⟩ := hplaces other hother
    exact (hat _).trans (by rw [if_neg hs.symm, if_neg ht.symm])
  · exact (congrArg _ (hat _)).trans hpending
  · rw [note, hrecord]
    exact hkept.accounts.move source target

/-- A thread with no job on its hands. -/
def Idle (i : Nat) (s : Serving × Ledger) : Prop :=
  s.2.jobsAt (.held i) = []

lemma Handles.ret (h : Idle i s) : Handles layout i (fun _ => Idle i) (.ret a) s :=
  fun _ hrely => hrely.trans h

lemma Ledger.jobsAt_claim (thread : Nat) (key : CacheKey) (deadline : Nat) (place : Place) :
    (g.claim thread key deadline).jobsAt place =
      if place = .held thread then g.jobsAt place ++ [⟨key, g.ticks, deadline⟩]
      else g.jobsAt place := by
  unfold Ledger.jobsAt Ledger.claim
  split
  next hplace => simp [hplace]
  next hplace => simp [Ne.symm hplace]

lemma Handles.lookup {key : CacheKey} {claimRefresh : Bool} (hidle : Idle i s)
    (hclaimed : claimRefresh = true → ∀ answer (t : Serving × Ledger) j,
      t.2.jobsAt (.held i) = [j] → j.key = key → Handles layout i Q (next (.stale answer true)) t)
    (hfree : ∀ found, (∀ answer, found ≠ .stale answer true) → ∀ t, Idle i t →
      Handles layout i Q (next found) t) :
    Handles layout i Q (.act (.lookup key claimRefresh) next) s := by
  refine Handles.act hidle fun s hidle hkept x b t hserve => ?_
  simp only [serve] at hserve
  obtain ⟨rfl, rfl⟩ := hserve
  rcases lookupInner_cases s.1.cache key claimRefresh (s.1.now + x.elapsed) with
    ⟨hclaim, ⟨answer, hfound⟩, -, -⟩ | ⟨hfound, -⟩
  · rw [hfound]
    have hat := s.2.jobsAt_claim i key (s.1.now + x.elapsed +
      (s.1.cache.lookupInner key claimRefresh (s.1.now + x.elapsed)).2.refreshClaimLease)
    have hmine := (hat (.held i)).trans (by rw [if_pos rfl, hidle, nil_append])
    refine ⟨fun j hj => ?_, ⟨?_, ?_⟩, hclaimed hclaim answer _ _ hmine rfl⟩
    · exact (hat _).trans (if_neg fun heq => hj (Place.held.inj heq))
    · exact (congrArg _ ((hat _).trans (if_neg (by simp)))).trans hkept.queue
    · exact hkept.accounts.claim i key _
  · have hsame : ∀ after, SameJobs s.2 (note ⟨i, ⟨Lookup, .lookup key claimRefresh⟩,
        (s.1.cache.lookupInner key claimRefresh (s.1.now + x.elapsed)).1, s.1, after⟩ s.2) := by
      intro after
      rw [note, s.2.record_lookup hfound]
      exact ⟨rfl, rfl, rfl⟩
    exact ⟨fun j _ => (hsame _).jobsAt _, (hsame _).kept hkept rfl,
      hfree _ hfound _ (((hsame _).jobsAt _).trans hidle)⟩

lemma offer_handles (hmine : s.2.jobsAt (.held i) = [j]) (hkey : j.key = key) :
    Handles layout i (fun _ => Idle i) (offer key) s := by
  simp only [offer, Prog.lift_bind]
  refine Handles.act hmine fun s hmine hkept x b t hserve => ?_
  simp only [serve] at hserve
  split at hserve
  · cases hserve
    have hsame : ∀ after, SameJobs s.2 (note ⟨i, ⟨Bool, .trySend key⟩, false, s.1, after⟩ s.2) :=
      fun _ => ⟨rfl, rfl, rfl⟩
    refine ⟨fun _ _ => (hsame _).jobsAt _, (hsame _).kept hkept rfl, ?_⟩
    refine Handles.act (((hsame _).jobsAt _).trans hmine) fun s hmine hkept x b t hserve => ?_
    cases hserve
    refine Handles.finished .released hmine hkept ?_ ?_ fun _ => Handles.ret
    · rfl
    · exact ⟨rfl, rfl, rfl⟩
  · cases hserve
    obtain ⟨hothers, hkept', hat⟩ := Handles.moving (DnsAccess.trySend key) true (.held i) .queued
      { s.1 with pending := s.1.pending ++ [key], now := s.1.now + x.elapsed } hkept hmine
      (by simp) (fun other hother => ⟨fun heq => hother (Place.held.inj heq).symm, by simp⟩) rfl
      (by simp [hkept.queue, hkey])
    exact ⟨hothers, hkept', Handles.ret ((hat _).trans (if_pos rfl))⟩

lemma Handles.store (hidle : Idle i s) (hnext : ∀ b t, Idle i t → Handles layout i Q (next b) t) :
    Handles layout i Q (.act (.store key response) next) s := by
  refine Handles.idle hidle (fun g hg s x b t hserve => ?_) hnext
  cases hserve
  refine ⟨rfl, ?_⟩
  simp only [Ledger.record, g.finish_of_nil hg]
  split
  · exact ⟨rfl, rfl, rfl⟩
  · exact ⟨rfl, rfl, rfl⟩

lemma Handles.forward (hmine : s.2.jobsAt (.held i) = mine)
    (hnext : ∀ b (t : Serving × Ledger), t.2.jobsAt (.held i) = mine →
      Handles layout i Q (next b) t) : Handles layout i Q (.act (.forward request) next) s := by
  refine Handles.idle hmine (fun g _ s x b t hserve => ?_) hnext
  cases hserve
  exact ⟨rfl, rfl, rfl, rfl⟩

lemma relayReply_handles (h : Idle i s) :
    Handles layout i (fun _ => Idle i) (relayReply request key forwarded) s := by
  exact Handles.store h fun _ _ => Handles.ret

lemma staleFallback_handles (h : Idle i s)
    (hotherwise : ∀ t, Idle i t → Handles layout i (fun _ => Idle i) otherwise t) :
    Handles layout i (fun _ => Idle i) (staleFallback request query key otherwise) s := by
  refine Handles.lookup h (fun hclaim => Bool.noConfusion hclaim) fun found _ t ht => ?_
  cases found with
  | stale answer claimed => exact Handles.ret ht
  | fresh | miss => exact hotherwise t ht

lemma forwardFirst_handles (h : Idle i s) :
    Handles layout i (fun _ => Idle i) (forwardFirst request query key) s := by
  simp only [forwardFirst, Prog.lift_bind]
  refine Handles.forward h fun reply t ht => ?_
  cases reply with
  | none => exact staleFallback_handles ht fun _ => Handles.ret
  | some forwarded =>
    dsimp only
    split
    · exact staleFallback_handles ht fun _ => relayReply_handles
    · exact relayReply_handles ht

lemma resolve_handles (swr : Bool) (request : Message) (query : WireQuery) (domain : Bytes) (h : Idle i s) :
    Handles layout i (fun _ => Idle i) (resolve swr request query domain) s := by
  simp only [resolve, Prog.lift_bind]
  refine Handles.lookup h (fun hswr answer t j hmine hkey => ?_) fun found hfound t ht => ?_
  · dsimp only
    rw [if_pos hswr, if_pos rfl]
    exact Holds.bind stable_sameHeld ((offer_handles hmine hkey).mono fun _ t ht => Handles.ret ht)
  · cases found with
    | miss => exact forwardFirst_handles ht
    | fresh answer remaining => exact Handles.ret ht
    | stale answer claimed =>
      cases claimed with
      | true => exact absurd rfl (hfound answer)
      | false =>
        dsimp only
        split
        · exact Handles.ret ht
        · exact forwardFirst_handles ht

lemma refresh_handles (lib : WireLibrary) (id : UInt16) (key : CacheKey) (hmine : s.2.jobsAt (.held i) = [j]) :
    Handles layout i (fun _ => Idle i) (refresh lib id key) s := by
  have hcooldown : ∀ t : Serving × Ledger, t.2.jobsAt (.held i) = [j] →
      Handles layout i (fun _ => Idle i) (.act (.suppressRefresh key) .ret) t := by
    intro t ht
    refine Handles.act ht fun s hmine hkept x b t hserve => ?_
    cases hserve
    refine Handles.finished .cooldown hmine hkept ?_ ?_ fun _ => Handles.ret
    · rfl
    · exact ⟨rfl, rfl, rfl⟩
  simp only [refresh, Prog.lift_bind]
  refine Handles.forward hmine fun reply t ht => ?_
  cases reply with
  | none => exact hcooldown t ht
  | some outcome =>
    refine Handles.act ht fun s hmine hkept x b t hserve => ?_
    simp only [serve, Option.some.injEq, Prod.mk.injEq] at hserve
    obtain ⟨-, rfl⟩ := hserve
    cases b with
    | true =>
      refine Handles.finished .replaced hmine hkept ?_ ?_ fun _ => Handles.ret
      · rfl
      · exact ⟨rfl, rfl, rfl⟩
    | false =>
      have hsame : ∀ after, SameJobs s.2 (note ⟨i, ⟨Bool, .store key outcome.message⟩, false, s.1,
          after⟩ s.2) := fun _ => ⟨rfl, rfl, rfl⟩
      exact ⟨fun _ _ => (hsame _).jobsAt _, (hsame _).kept hkept rfl,
        hcooldown _ (((hsame _).jobsAt _).trans hmine)⟩

lemma worker_handles (lib : WireLibrary) (id : UInt16) (rounds : Nat)
    (h : Idle i s) : Handles layout i (fun _ => Idle i) (worker lib id rounds) s := by
  induction rounds generalizing s with
  | zero => exact Handles.ret h
  | succ rounds ih =>
    simp only [worker, Prog.lift_bind]
    refine Handles.act h fun s hidle hkept x b t hserve => ?_
    simp only [serve] at hserve
    split at hserve
    next key rest hpending =>
      cases hserve
      -- the job at the head of the queue
      obtain ⟨j, more, hqueued, hkeys⟩ : ∃ j more, s.2.jobsAt .queued = j :: more ∧
          more.map Job.key = rest := by
        have hqueue := hkept.queue
        rw [hpending] at hqueue
        cases hjobs : s.2.jobsAt .queued with
        | nil => simp [hjobs] at hqueue
        | cons j more =>
          rw [hjobs, map_cons, List.cons.injEq] at hqueue
          exact ⟨j, more, rfl, hqueue.2⟩
      obtain ⟨hothers, hkept', hat⟩ := Handles.moving DnsAccess.recv (some key) .queued (.held i)
        { s.1 with pending := rest, now := s.1.now + x.elapsed } hkept hqueued (by simp)
        (fun other hother => ⟨by simp, fun heq => hother (Place.held.inj heq).symm⟩) rfl
        (by rw [if_pos rfl]; exact hkeys)
      refine ⟨hothers, hkept', Holds.bind stable_sameHeld ?_⟩
      refine (refresh_handles lib id key (j := j) ?_).mono fun _ t ht => ih ht
      refine (hat _).trans ?_
      rw [if_neg (by simp), if_pos rfl, hidle]
      rfl
    next hpending =>
      split at hserve
      · cases hserve
        have hsame : ∀ after, SameJobs s.2 (note ⟨i, ⟨Option CacheKey, .recv⟩, none, s.1, after⟩
            s.2) := fun _ => ⟨rfl, rfl, rfl⟩
        exact ⟨fun _ _ => (hsame _).jobsAt _, (hsame _).kept hkept rfl,
          Handles.ret (((hsame _).jobsAt _).trans hidle)⟩
      · cases hserve

lemma clean_handles (purgeStale : Bool) (shards : List (Fin shardCount))
    (h : Idle i s) : Handles layout i (fun _ => Idle i) (clean purgeStale shards) s := by
  induction shards generalizing s with
  | nil => exact Handles.ret h
  | cons shard shards ih =>
    refine Handles.idle h (fun g _ s x b t hserve => ?_) fun _ _ => ih
    cases hserve
    exact ⟨rfl, rfl, rfl, rfl⟩

lemma Task.handles (task : Task) (h : Idle i s) :
    Handles layout i (fun _ => Idle i) task.prog s := by
  cases task with
  | query swr request question domain =>
    exact Holds.bind stable_sameHeld
      ((resolve_handles swr request question domain h).mono fun _ _ => Handles.ret)
  | worker lib id rounds =>
    exact Holds.bind stable_sameHeld ((worker_handles lib id rounds h).mono fun _ _ => Handles.ret)
  | clean purgeStale =>
    exact Holds.bind stable_sameHeld ((clean_handles purgeStale _ h).mono fun _ _ => Handles.ret)

end Keeping

section Runs

variable {layout : Layout} {tasks : List Task} {s : Serving}
  {labels : List (Label DnsAccess Serving)} {c : Pool DnsAccess Serving (Option Resolved)}

lemma guarded_empty (s : Serving) : Guarded s .empty where
  born_lt := by simp [Ledger.empty]
  inserted_le := fun _ => Nat.le_refl _
  deadline_le := by simp [Ledger.empty]
  covered := by simp [Ledger.empty]
  one := fun _ => by simp [Ledger.empty]

/-- **One refresh for each stale entry.** In a run of queries, workers and cleans
in which every job ends within its lease, and no release or too short cooldown
ends a claim older than the last insertion of its key: before each step and at
the end, at most one open job for each key was claimed since its last insertion;
every claim is open or has ended in a replaced entry, a cooldown or a release;
and once all tasks have finished and the queue is empty, every claim has ended in
one of these ways. -/
theorem one_refresh_per_entry (hrun : Pool.Run (machine layout) ⟨s, tasks.map Task.prog⟩ labels c)
    (hidle : s.pending = []) (htimely : ∀ m ∈ noted labels, TimelyStep m)
    (hown : ∀ m ∈ noted labels, EndsOwnClaim m) :
    (∀ m ∈ noted labels, m.before.2.AtMostOne) ∧ (recorded note .empty labels).AtMostOne ∧
      (recorded note .empty labels).Accounts ∧ (c.Finished → c.state.pending = [] →
        ∀ j ∈ (recorded note .empty labels).claimed,
          ∃ ending, (j, ending) ∈ (recorded note .empty labels).ended) := by
  have hghost : Pool.Run ((machine layout).ghost note) _ _ _ := hrun.ghost Ledger.empty
  have hguarded := hghost.invariant_along (I := fun s => Guarded s.1 s.2)
    (C := fun m => TimelyStep m ∧ EndsOwnClaim m) guarded_step
    (fun m hm => ⟨htimely m hm, hown m hm⟩) (guarded_empty s)
  have hkept : Kept (s, Ledger.empty) := ⟨hidle.symm, by simp [Ledger.Accounts, Ledger.empty]⟩
  obtain ⟨hend, hsteps, hthreads⟩ := hghost.holds (Q := fun i _ => Idle i) stable_sameHeld
    (fun i j hij s t _ (hothers : OthersHeld i s t) => hothers j hij.symm) hkept fun i p hp => by
      obtain ⟨task, -, rfl⟩ := mem_map.mp (mem_of_getElem? hp)
      exact task.handles rfl
  refine ⟨fun m hm => (hguarded.2 m hm).one, hguarded.1.one, hend.accounts, ?_⟩
  intro hfinished hpending j hj
  refine (hend.accounts j hj).resolve_left ?_
  rintro ⟨place, hmem⟩
  have hat : j ∈ (recorded note .empty labels).jobsAt place :=
    mem_map.mpr ⟨(j, place), mem_filter.mpr ⟨hmem, by simp⟩, rfl⟩
  cases place with
  | queued =>
    have hqueue := hend.queue
    rw [hpending, map_eq_nil_iff] at hqueue
    rw [hqueue] at hat
    cases hat
  | held i =>
    have hnone : Idle i (c.state, recorded note .empty labels) := by
      cases hp : c.threads[i]? with
      | some p =>
        obtain ⟨r, rfl⟩ := hfinished p (mem_of_getElem? hp)
        exact hthreads i _ hp _ rfl
      | none =>
        -- no thread of this number took a step
        have hlength := hrun.threads_length
        rw [List.getElem?_eq_none_iff, hlength] at hp
        refine (hghost.invariant_along (I := Idle i)
          (C := fun m => m.thread ≠ i ∧ OthersHeld m.thread m.before m.after)
          (fun m _ hidle hm _ => (hm.2 i hm.1.symm).trans hidle) (fun m hm => ⟨?_, ?_⟩) rfl).1
        · exact Nat.ne_of_lt (Nat.lt_of_lt_of_le (hghost.thread_lt m hm) hp)
        · exact (hsteps m hm).2
    rw [hnone] at hat
    cases hat

/-- Two jobs claimed since the last insertion of a key, one with a worker and one
in the queue. -/
def TwoJobs (g : Ledger) (key : CacheKey) (thread : Nat) : Prop :=
  ∃ j ∈ g.jobsAt (.held thread), ∃ j' ∈ g.jobsAt .queued,
    j ≠ j' ∧ j.key = key ∧ j'.key = key ∧ g.Current j ∧ g.Current j'

instance (g : Ledger) (key : CacheKey) (thread : Nat) : Decidable (TwoJobs g key thread) :=
  inferInstanceAs (Decidable (∃ j ∈ g.jobsAt (.held thread), ∃ j' ∈ g.jobsAt .queued, _))

/-- Another name. -/
def otherTask : Task :=
  .query true ((Message.query 7).addQuery addressQuery) addressQuery (lit "other.example.")

/-- Four queries for an address before two workers and the clients that fill the
cache and the queue. -/
def crowd : List Task :=
  [addressTask true, addressTask true, addressTask true, addressTask true,
    .worker readingLibrary 1 1, addressTask true, otherTask, otherTask,
    .worker readingLibrary 1 1]

/-- A reply that goes stale at once. -/
def Chance.shortLived : Chance := ⟨0, some (addressReply 0), false⟩

/-- The first query claims the entry and finds the queue full. Before it hands
the claim back, the second, which had missed, stores a new entry, a worker makes
room, and the third claims the new entry and is queued. The release frees that
claim for the fourth. -/
def lateRelease : List (Nat × Chance) :=
  [(1, .plain), (5, .plain), (5, .shortLived), (5, .plain), (6, .plain), (6, .shortLived),
    (6, .plain), (7, .plain), (7, .plain), (0, .plain), (0, .plain), (1, .shortLived),
    (1, .plain), (4, .plain), (2, .plain), (2, .plain), (0, .plain), (3, .plain), (8, .plain),
    (3, .plain)]

/-- **A release that is not its own**: with every claim within its lease, a key
has a refresh running and another in the queue, both claimed since its last
insertion. -/
theorem released_for_another :
    ∃ labels c, Pool.Run (machine ⟨8, 56, 64⟩) ⟨idleServing 1000, crowd.map Task.prog⟩ labels c ∧
      (∀ m ∈ noted labels, TimelyStep m) ∧ TwoJobs (recorded note .empty labels) addressKey 8 := by
  exact Pool.exists_run lateRelease _ (by decide +kernel) fun _ _ _ h => h

/-- A claim goes through the queue to a worker, and its failure to a cooldown. -/
theorem one_refresh_per_entry_cooldown :
    ∃ labels c, Pool.Run (machine ⟨8, 56, 64⟩)
        ⟨idleServing 1000, [addressTask true, addressTask true, .worker readingLibrary 1 1].map
          Task.prog⟩ labels c ∧ (recorded note .empty labels).ended.map (·.2) = [.cooldown] ∧
      (∀ m ∈ noted labels, m.before.2.AtMostOne) := by
  refine Pool.exists_run [(0, .plain), (0, .shortLived), (0, .plain), (1, .plain), (1, .plain),
      (2, .plain), (2, .plain), (2, .plain)]
    (fun labels _ => (∀ m ∈ noted labels, TimelyStep m) ∧ (∀ m ∈ noted labels, EndsOwnClaim m) ∧
      (recorded note .empty labels).ended.map (·.2) = [.cooldown]) (by decide +kernel) ?_
  rintro labels c hrun ⟨htimely, hown, hended⟩
  exact ⟨hended, (one_refresh_per_entry hrun rfl htimely hown).1⟩

end Runs

end FastAdHunter.Dns
