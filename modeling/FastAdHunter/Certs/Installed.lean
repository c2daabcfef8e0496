import FastAdHunter.Certs.Store

/-!
# Leaves of the installed authority

An installation replaces the authority in its slot and then empties the leaf cache,
both under the lock of the authority; a pre-warm reads the slot and the epoch of
the cache under that lock, and stores what it minted only under the same epoch.
-/

namespace FastAdHunter.Certs

open Lib

section Tasks

/-- What runs beside each other. -/
inductive CertTask where
  | install (certPem keyPem : Bytes)
  | prewarm (fuel : Nat) (host : Bytes)
  | cached (host : Bytes)

inductive CertReply where
  | installed (result : Except CertError CaInstalled)
  | prewarmed (result : Except CertError Leaf)
  | cached (leaf : Option Leaf)

variable (lib : CertLibrary)

def CertTask.prog : CertTask → Prog CertAccess CertReply
  | .install certPem keyPem => do
    let result ← installCa lib certPem keyPem
    pure (.installed result)
  | .prewarm fuel host => do
    let result ← Certs.prewarm fuel host
    pure (.prewarmed result)
  | .cached host => do
    let leaf ← cachedLeaf host
    pure (.cached leaf)

/-- A store that was just opened. -/
def CertState.opened (files : CertPath → Option Bytes) (archives : Pair → List ArchiveName)
    (slot : Option CaHandle) (imported : Bool) : CertState where
  files := files
  archives := archives
  locks := fun _ => none
  slot := slot
  imported := imported
  leaves := .empty

/-- The authority whose leaves the cache holds: that in the slot when the cache was
last emptied. -/
def noteCleared (l : Label CertAccess CertState) (authority : Option CaHandle) : Option CaHandle :=
  match l with
  | ⟨_, ⟨_, .clearLeaves⟩, _, before, _⟩ => before.slot
  | _ => authority

/-- Thread `i` is an installation. -/
def Installs (tasks : List CertTask) (i : Nat) : Prop :=
  ∃ certPem keyPem, tasks[i]? = some (.install certPem keyPem)

/-- No installation is in its critical section. -/
def Quiescent (tasks : List CertTask) (s : CertState) : Prop :=
  ∀ i, s.locks .ca = some i → ¬ Installs tasks i

/-- A pre-warm gets this leaf, from the cache or by storing it there. -/
def Delivers (key : Leaf) : Label CertAccess CertState → Prop
  | ⟨_, ⟨_, .lease _ _⟩, result, _, _⟩ => result = .fresh key
  | ⟨_, ⟨_, .storeMinted _ _ minted⟩, result, _, _⟩ => result = true ∧ minted = key
  | _ => False

end Tasks

section Soundness

abbrev Vault := CertState × Option CaHandle

variable (tasks : List CertTask)

/-- Every leaf is of the authority of the cache, and that is the one in the slot
unless an installation is at work. -/
structure Consistent (s : Vault) : Prop where
  keys : ∀ key ∈ s.1.leaves.keys, s.2 = some key.issuer
  inStep : Quiescent tasks s.1 → s.1.slot = s.2

/-- What the others leave a thread: the slot, if it holds the lock; and an epoch
that stays the same only as long as the authority of the cache does. -/
structure Respects (i : Nat) (s t : Vault) : Prop where
  locked : s.1.locks .ca = some i →
    t.1.locks .ca = some i ∧ t.1.slot = s.1.slot ∧ t.2 = s.2
  epoch_le : s.1.leaves.epoch ≤ t.1.leaves.epoch
  epoch_eq : t.1.leaves.epoch = s.1.leaves.epoch → t.2 = s.2

def OthersRespect (i : Nat) (s t : Vault) : Prop := ∀ j, j ≠ i → Respects j s t

lemma stable_respects : Stable Respects where
  refl := fun i s => ⟨fun h => ⟨h, rfl, rfl⟩, Nat.le_refl _, fun _ => rfl⟩
  trans := by
    intro i s t u hst htu
    refine ⟨fun h => ?_, hst.epoch_le.trans htu.epoch_le, fun h => ?_⟩
    · obtain ⟨hlock, hslot, hauthority⟩ := hst.locked h
      obtain ⟨hlock', hslot', hauthority'⟩ := htu.locked hlock
      exact ⟨hlock', hslot'.trans hslot, hauthority'.trans hauthority⟩
    · have heq : t.1.leaves.epoch = s.1.leaves.epoch :=
        Nat.le_antisymm (htu.epoch_le.trans_eq h) hst.epoch_le
      exact (htu.epoch_eq (h.trans heq.symm)).trans (hst.epoch_eq heq)

/-- A step that brings no leaf in and leaves lock, slot and epoch. -/
structure Quiet (s t : Vault) : Prop where
  lock : t.1.locks .ca = s.1.locks .ca
  slot : t.1.slot = s.1.slot
  authority : t.2 = s.2
  epoch : t.1.leaves.epoch = s.1.leaves.epoch
  keys : ∀ key ∈ t.1.leaves.keys, key ∈ s.1.leaves.keys

variable {tasks} {i : Nat} {s t : Vault}

lemma Quiet.respects (h : Quiet s t) (j : Nat) : Respects j s t :=
  ⟨fun hj => ⟨h.lock.trans hj, h.slot, h.authority⟩, h.epoch.ge, fun _ => h.authority⟩

lemma Quiet.consistent (h : Quiet s t) (hs : Consistent tasks s) : Consistent tasks t := by
  refine ⟨fun key hkey => h.authority.trans (hs.keys key (h.keys key hkey)), fun hquiet => ?_⟩
  rw [h.slot, h.authority]
  refine hs.inStep fun i hi => hquiet i ?_
  rw [h.lock, hi]

def CertAccess.IsQuiet : {β : Type} → CertAccess β → Prop
  | _, .lock pair => pair ≠ .ca
  | _, .unlock pair => pair ≠ .ca
  | _, .setSlot _ => False
  | _, .clearLeaves => False
  | _, .storeMinted _ _ _ => False
  | _, _ => True

lemma serve_quiet (hquiet : access.IsQuiet) {b : β}
    {s t : CertState} (h : serve access i x s = some (b, t)) (authority : Option CaHandle) :
    Quiet (s, authority) (t, noteCleared ⟨i, ⟨β, access⟩, b, s, t⟩ authority) := by
  have hsame : ∀ {t' : CertState}, t' = s → Quiet (s, authority) (t', authority) := by
    rintro t' rfl
    exact ⟨rfl, rfl, rfl, rfl, fun _ h => h⟩
  have hfile : ∀ path contents, Quiet (s, authority) (s.setFile path contents, authority) :=
    fun path contents => ⟨rfl, rfl, rfl, rfl, fun _ h => h⟩
  cases access with
  | «exists» | readSlot | readEpoch | now =>
    cases h
    exact hsame rfl
  | read path =>
    simp only [serve, attempt] at h
    repeat' split at h
    all_goals
      cases h
      exact hsame rfl
  | ensureParent | restrict | createArchives | countArchives =>
    simp only [serve, attempt] at h
    split at h
    all_goals
      cases h
      exact hsame rfl
  | write path text =>
    simp only [serve, attempt] at h
    split at h
    · cases h
      exact hsame rfl
    · cases h
      exact hfile _ _
  | rename source target =>
    simp only [serve, attempt] at h
    repeat' split at h
    · cases h
      exact hsame rfl
    · cases h
      exact ⟨rfl, rfl, rfl, rfl, fun _ h => h⟩
    · cases h
      exact hsame rfl
  | copy source target =>
    simp only [serve, attempt] at h
    repeat' split at h
    · cases h
      exact hsame rfl
    · cases h
      exact hfile _ _
    · cases h
      exact hsame rfl
  | discard path =>
    simp only [serve] at h
    split at h
    · cases h
      exact hsame rfl
    · cases h
      exact hfile _ _
  | createArchive pair name =>
    simp only [serve] at h
    repeat' split at h
    · cases h
      exact hsame rfl
    · cases h
      exact hsame rfl
    · cases h
      exact ⟨rfl, rfl, rfl, rfl, fun _ h => h⟩
  | removeArchive pair name =>
    simp only [serve] at h
    split at h
    · cases h
      exact hsame rfl
    · cases h
      exact ⟨rfl, rfl, rfl, rfl, fun _ h => h⟩
  | lock pair =>
    simp only [serve] at h
    split at h
    · cases h
      exact ⟨Function.update_of_ne (Ne.symm hquiet) _ _, rfl, rfl, rfl, fun _ h => h⟩
    · cases h
  | unlock pair =>
    cases h
    exact ⟨Function.update_of_ne (Ne.symm hquiet) _ _, rfl, rfl, rfl, fun _ h => h⟩
  | setImported | release =>
    cases h
    exact ⟨rfl, rfl, rfl, rfl, fun _ h => h⟩
  | cachedLeaf host now =>
    cases h
    obtain ⟨hkeys, -, hepoch⟩ := LeafCache.cached_keys s.leaves host now
    exact ⟨rfl, rfl, rfl, hepoch, hkeys⟩
  | lease host now =>
    cases h
    obtain ⟨hkeys, -, hepoch⟩ := LeafCache.lease_keys s.leaves host now
    exact ⟨rfl, rfl, rfl, hepoch, hkeys⟩
  | mint ca host =>
    simp only [serve] at h
    split at h
    all_goals
      cases h
      exact hsame rfl
  | goOn => exact nomatch h
  | setSlot | clearLeaves | storeMinted => exact hquiet.elim

end Soundness

section Rules

variable (tasks : List CertTask)

/-- The store with the authority of its cache. -/
def tracked : Machine CertAccess Vault Chance := machine.ghost noteCleared

/-- What a thread does to the slot and the leaves. -/
abbrev Tends (i : Nat) {α : Type} (Q : α → Vault → Prop) : Prog CertAccess α → Vault → Prop :=
  Holds tracked (Consistent tasks) Respects OthersRespect i Q

variable {tasks} {i : Nat} {α β : Type} {Q : α → Vault → Prop} {s : Vault} {A : Vault → Prop}

lemma tracked_run (h : tracked.run access i x s = some (b, (t, authority))) :
    serve access i x s.1 = some (b, t) ∧ authority = noteCleared ⟨i, ⟨β, access⟩, b, s.1, t⟩ s.2 :=
  Machine.ghost_run h

lemma quiet_tends (hquiet : access.IsQuiet) (hA : ∀ {s t}, A s → Respects i s t → A t) (hs : A s)
    (hnext : ∀ x s' b t, A s' → serve access i x s'.1 = some (b, t.1) → Quiet s' t → A t →
      Tends tasks i Q (next b) t) : Tends tasks i Q (.act access next) s := by
  rintro s' hrely hconsistent x b ⟨t, authority⟩ hrun
  obtain ⟨hserve, rfl⟩ := tracked_run hrun
  have hstep := serve_quiet hquiet hserve s'.2
  have hs' := hA hs hrely
  exact ⟨fun j _ => hstep.respects j, hstep.consistent hconsistent,
    hnext x s' b _ hs' hserve hstep (hA hs' (hstep.respects i))⟩

lemma ret_tends (hA : ∀ {s t}, A s → Respects i s t → A t) (hs : A s)
    (hQ : ∀ t, A t → Q a t) : Tends tasks i Q (.ret a) s :=
  fun t hst => hQ t (hA hs hst)

lemma all_tends (hA : ∀ {s t}, A s → Respects i s t → A t)
    (hp : p.All CertAccess.IsQuiet) (hs : A s) : Tends tasks i (fun _ => A) p s := by
  refine Holds.of_all (fun s t hst h => hA h hst) ?_ hp hs
  rintro δ access hquiet s x b ⟨t, authority⟩ hs hconsistent hrun
  obtain ⟨hserve, rfl⟩ := tracked_run hrun
  have hstep := serve_quiet hquiet hserve s.2
  exact ⟨fun j _ => hstep.respects j, hstep.consistent hconsistent, hA hs (hstep.respects i)⟩

/-- The lock is held, with the slot and the cache in step. -/
def Holding (i : Nat) (s : Vault) : Prop := s.1.locks .ca = some i ∧ s.1.slot = s.2

lemma Holding.respects (h : Holding i s) (hst : Respects i s t) : Holding i t := by
  obtain ⟨hlock, hslot, hauthority⟩ := hst.locked h.1
  exact ⟨hlock, by rw [hslot, hauthority, h.2]⟩

lemma lock_tends (hnext : ∀ t, Holding i t → Tends tasks i Q (next ()) t) :
    Tends tasks i Q (.act (.lock .ca) next) s := by
  rintro s' - hconsistent x b ⟨t, authority⟩ hrun
  obtain ⟨hserve, rfl⟩ := tracked_run hrun
  simp only [serve] at hserve
  split at hserve
  next hfree =>
    cases hserve
    rw [Option.isNone_iff_eq_none] at hfree
    have hslot : s'.1.slot = s'.2 := by
      refine hconsistent.inStep fun j hj => ?_
      rw [hfree] at hj
      cases hj
    have hlock : (s'.1.setLock .ca (some i)).locks .ca = some i := by
      simp [CertState.setLock]
    refine ⟨fun j _ => ⟨fun hj => ?_, Nat.le_refl _, fun _ => rfl⟩, ⟨hconsistent.keys, fun _ => hslot⟩,
      hnext _ ⟨hlock, hslot⟩⟩
    rw [hfree] at hj
    cases hj
  · cases hserve

lemma Holding.others (h : s.1.locks .ca = some i) (hj : s.1.locks .ca = some j) :
    i = j :=
  Option.some.inj (h.symm.trans hj)

lemma unlock_tends (hs : Holding i s)
    (hnext : ∀ s' t, Respects i s s' → t.1.leaves = s'.1.leaves → t.2 = s'.2 →
      Tends tasks i Q (next ()) t) : Tends tasks i Q (.act (.unlock .ca) next) s := by
  rintro s' hrely hconsistent x b ⟨t, authority⟩ hrun
  obtain ⟨hserve, rfl⟩ := tracked_run hrun
  cases hserve
  have hs' := hs.respects hrely
  refine ⟨fun j hj => ⟨fun hlock => ?_, Nat.le_refl _, fun _ => rfl⟩,
    ⟨hconsistent.keys, fun _ => hs'.2⟩, hnext s' _ hrely rfl rfl⟩
  exact absurd (Holding.others hs'.1 hlock).symm hj

lemma replace_tends (hinstalls : Installs tasks i) (hs : Holding i s)
    (hnext : ∀ t, Holding i t → Tends tasks i Q (next ()) t) :
    Tends tasks i Q (.act (.setSlot handle) fun _ => .act .clearLeaves next) s := by
  rintro s' hrely hconsistent x b ⟨t, authority⟩ hrun
  obtain ⟨hserve, rfl⟩ := tracked_run hrun
  cases hserve
  have hs' := hs.respects hrely
  refine ⟨fun j hj => ⟨fun hlock => ?_, Nat.le_refl _, fun _ => rfl⟩,
    ⟨hconsistent.keys, fun hquiet => absurd hinstalls (hquiet i hs'.1)⟩, ?_⟩
  · exact absurd (Holding.others hs'.1 hlock).symm hj
  rintro s'' hrely' hconsistent' x b ⟨t, authority⟩ hrun
  obtain ⟨hserve, rfl⟩ := tracked_run hrun
  cases hserve
  obtain ⟨hlock', -, -⟩ := hrely'.locked hs'.1
  refine ⟨fun j hj => ⟨fun hlock => ?_, Nat.le_succ _, fun hepoch => ?_⟩,
    ⟨fun key hkey => (nomatch hkey), fun _ => rfl⟩, hnext _ ⟨hlock', rfl⟩⟩
  · exact absurd (Holding.others hlock' hlock).symm hj
  · exact absurd hepoch (Nat.succ_ne_self _)

/-- The authority of an epoch, as it was read with that epoch. -/
def Captured (ca : CaHandle) (epoch : Nat) (s : Vault) : Prop :=
  epoch ≤ s.1.leaves.epoch ∧ (s.1.leaves.epoch = epoch → s.2 = some ca)

lemma Captured.respects (h : Captured ca epoch s) (hst : Respects i s t) : Captured ca epoch t := by
  refine ⟨h.1.trans hst.epoch_le, fun heq => ?_⟩
  have hsame : s.1.leaves.epoch = epoch := Nat.le_antisymm (hst.epoch_le.trans_eq heq) h.1
  rw [hst.epoch_eq (heq.trans hsame.symm)]
  exact h.2 hsame

lemma storeMinted_tends (hs : Captured key.issuer epoch s)
    (hnext : ∀ b t, Tends tasks i Q (next b) t) :
    Tends tasks i Q (.act (.storeMinted host epoch key) next) s := by
  rintro s' hrely hconsistent x b ⟨t, authority⟩ hrun
  obtain ⟨hserve, rfl⟩ := tracked_run hrun
  cases hserve
  have hs' := hs.respects hrely
  obtain ⟨-, hkeys, hepoch⟩ := LeafCache.storeMinted_keys leafCacheCapacity s'.1.leaves host epoch
    key key.notAfter
  refine ⟨fun j _ => ⟨fun hlock => ⟨hlock, rfl, rfl⟩, hepoch.ge, fun _ => rfl⟩,
    ⟨fun key' hkey => ?_, hconsistent.inStep⟩, hnext _ _⟩
  rcases hkeys key' hkey with ⟨hsame, rfl⟩ | hkey
  · exact hs'.2 hsame
  · exact hconsistent.keys key' hkey

end Rules

section Programs

variable {α β : Type}

lemma andThen_all {k : α → Prog CertAccess (Except ε β)} (hp : p.All P)
    (hk : ∀ a, (k a).All P) : (andThen p k).All P := by
  refine hp.bind fun result => ?_
  cases result with
  | error error => trivial
  | ok a => exact hk a

lemma onPath_all (h : P access) : (onPath path access).All P := by
  refine ⟨h, fun result => ?_⟩
  cases result
  all_goals trivial

lemma write_all (path : CertPath) (text : Bytes) : (write path text).All CertAccess.IsQuiet :=
  andThen_all (onPath_all trivial) fun _ => onPath_all trivial

lemma discardStaged_all (pair : Pair) : (discardStaged pair).All CertAccess.IsQuiet :=
  ⟨trivial, fun _ => ⟨trivial, fun _ => trivial⟩⟩

lemma orUnstage_all
    (hp : p.All CertAccess.IsQuiet) : (orUnstage pair p).All CertAccess.IsQuiet := by
  refine hp.bind fun result => ?_
  cases result with
  | error error => exact (discardStaged_all pair).bind fun _ => trivial
  | ok a => trivial

lemma stagePair_all (pair : Pair) (certPem keyPem : Bytes) :
    (stagePair pair certPem keyPem).All CertAccess.IsQuiet :=
  ⟨trivial, fun _ => orUnstage_all (andThen_all (write_all _ _) fun _ => write_all _ _)⟩

lemma commitPair_all (pair : Pair) : (commitPair pair).All CertAccess.IsQuiet := by
  refine andThen_all (orUnstage_all (onPath_all trivial)) fun _ => ?_
  refine (onPath_all trivial).bind fun result => ?_
  cases result with
  | error error => exact ⟨trivial, fun _ => ⟨trivial, fun _ => trivial⟩⟩
  | ok _ => trivial

lemma copyExisting_all (source target : CertPath) :
    (copyExisting source target).All CertAccess.IsQuiet := by
  refine ⟨trivial, fun there => ?_⟩
  cases there with
  | true => exact onPath_all trivial
  | false => trivial

lemma findArchive_all (pair : Pair) (stamp : Int) (left attempt : Nat) :
    (findArchive pair stamp left attempt).All CertAccess.IsQuiet := by
  induction left generalizing attempt with
  | zero => trivial
  | succ left ih =>
    refine ⟨trivial, fun made => ?_⟩
    cases made with
    | alreadyExists => exact ih _
    | _ => trivial

lemma archivePair_all (pair : Pair) : (archivePair pair).All CertAccess.IsQuiet := by
  refine andThen_all (andThen_all (onPath_all trivial) fun _ =>
    andThen_all (onPath_all trivial) fun retired => ?_) fun name => ?_
  · split
    · trivial
    · exact ⟨trivial, fun stamp => findArchive_all _ _ _ _⟩
  · refine Prog.All.bind ?_ fun result => ?_
    · refine andThen_all (copyExisting_all _ _) fun _ =>
        andThen_all (copyExisting_all _ _) fun _ => ⟨trivial, fun there => ?_⟩
      cases there with
      | true => exact onPath_all trivial
      | false => trivial
    · cases result with
      | error error => exact ⟨trivial, fun _ => trivial⟩
      | ok _ => trivial

lemma archiveExisting_all (pair : Pair) : (archiveExisting pair).All CertAccess.IsQuiet := by
  refine Prog.All.bind ?_ fun there => ?_
  · refine ⟨trivial, fun there => ?_⟩
    cases there with
    | true => trivial
    | false => exact ⟨trivial, fun _ => trivial⟩
  · cases there with
    | true => exact orUnstage_all (andThen_all (archivePair_all pair) fun _ => trivial)
    | false => trivial

lemma restoreFrom_all (pair : Pair) (archive : Option ArchiveName) :
    (restoreFrom pair archive).All CertAccess.IsQuiet := by
  cases archive with
  | none => trivial
  | some name =>
    refine (discardStaged_all pair).bind fun _ => ?_
    refine (copyExisting_all _ _).bind fun _ => ?_
    exact (copyExisting_all _ _).bind fun _ => trivial

end Programs

section Threads

variable {lib : CertLibrary} {tasks : List CertTask} {i : Nat} {α β : Type} {s : Vault}

/-- A thread that has nothing to keep. -/
abbrev Obliging (tasks : List CertTask) (i : Nat) {α : Type} : Prog CertAccess α → Vault → Prop :=
  Tends tasks i fun _ _ => True

lemma ret_obliging (a : α) : Obliging tasks i (.ret a) s := fun _ _ => trivial

lemma bind_obliging (hp : Obliging tasks i p s) (hk : ∀ b t, Obliging tasks i (k b) t) :
    Obliging tasks i (p >>= k) s :=
  Holds.bind stable_respects (hp.mono fun b t _ => hk b t)

lemma andThen_holding (hp : Tends tasks i (fun _ => Holding i) p s)
    (hk : ∀ a t, Holding i t → Tends tasks i (fun _ => Holding i) (k a) t) :
    Tends tasks i (fun _ => Holding i) (andThen p k) s := by
  refine Holds.bind stable_respects (hp.mono fun result t ht => ?_)
  cases result with
  | error error => exact ret_tends Holding.respects ht fun _ h => h
  | ok a => exact hk a t ht

lemma installLocked_tends (hinstalls : Installs tasks i) (handle : CaHandle) (keyPem : Bytes)
    (hs : Holding i s) : Tends tasks i (fun _ => Holding i) (installLocked handle keyPem) s := by
  refine andThen_holding (all_tends Holding.respects (stagePair_all _ _ _) hs) fun _ t ht => ?_
  refine andThen_holding (all_tends Holding.respects (archiveExisting_all _) ht)
    fun archive t ht => ?_
  refine Holds.bind stable_respects
    ((all_tends Holding.respects (commitPair_all .ca) ht).mono fun result t ht => ?_)
  cases result with
  | error error =>
    refine Holds.bind stable_respects
      ((all_tends Holding.respects (restoreFrom_all .ca archive) ht).mono fun _ t ht => ?_)
    exact ret_tends Holding.respects ht fun _ h => h
  | ok _ =>
    refine replace_tends hinstalls ht fun t ht => ?_
    exact ret_tends Holding.respects ht fun _ h => h

lemma installCa_obliging (hinstalls : Installs tasks i) (certPem keyPem : Bytes) :
    Obliging tasks i (installCa lib certPem keyPem) s := by
  unfold installCa
  split
  · exact ret_obliging _
  · simp only [Prog.lift_bind]
    refine lock_tends fun t ht => ?_
    refine Holds.bind stable_respects
      ((installLocked_tends hinstalls _ keyPem ht).mono fun result t ht => ?_)
    exact unlock_tends ht fun _ _ _ _ _ => ret_obliging _

/-- What is read under the lock belongs together. -/
def CapturedBy : Except CertError (CaHandle × Nat) → Vault → Prop
  | .ok (ca, epoch), t => Captured ca epoch t
  | .error _, _ => True

lemma currentCa_tends : Tends tasks i CapturedBy currentCa s := by
  refine lock_tends fun t ht => ?_
  refine quiet_tends trivial Holding.respects ht fun x s' slot t hs' hserve hquiet ht => ?_
  cases slot with
  | none => exact unlock_tends ht fun _ _ _ _ _ _ _ => trivial
  | some ca =>
    have hca : t.2 = some ca := by
      rw [← ht.2, hquiet.slot]
      exact (Prod.mk.inj (Option.some.inj hserve)).1
    have hread : Holding i t ∧ t.2 = some ca := ⟨ht, hca⟩
    refine quiet_tends (A := fun t => Holding i t ∧ t.2 = some ca) trivial
      (fun h hst => ⟨h.1.respects hst, (hst.locked h.1.1).2.2.trans h.2⟩) hread
      fun x s' epoch t hs' hserve hquiet ht => ?_
    have hepoch : t.1.leaves.epoch = epoch := by
      rw [hquiet.epoch]
      exact (Prod.mk.inj (Option.some.inj hserve)).1
    have hcaptured : Captured ca epoch t := ⟨hepoch.ge, fun _ => ht.2⟩
    refine unlock_tends ht.1 fun s' t hrely hleaves hauthority => ?_
    have hkept : Captured ca epoch t := by
      obtain ⟨hle, heq⟩ := hcaptured.respects hrely
      rw [← hleaves] at hle heq
      rw [← hauthority] at heq
      exact ⟨hle, heq⟩
    exact ret_tends Captured.respects hkept fun _ h => h

lemma leaseHost_tends (hA : ∀ {s t}, A s → Respects i s t → A t) (fuel : Nat)
    (host : Bytes) (now : Int) (hs : A s) :
    Tends tasks i (fun _ => A) (leaseHost fuel host now) s := by
  induction fuel generalizing s with
  | zero => exact fun _ _ _ x b t hrun => nomatch b
  | succ fuel ih =>
    refine quiet_tends trivial hA hs fun _ _ lease t _ _ _ ht => ?_
    cases lease with
    | fresh | mint => exact ret_tends hA ht fun _ h => h
    | busy => exact ih ht

lemma mintLeaf_obliging
    (hs : Captured ca epoch s) : Obliging tasks i (mintLeaf ca host epoch) s := by
  simp only [mintLeaf, Prog.lift_bind]
  refine quiet_tends trivial Captured.respects hs fun x s' minted t _ hserve _ ht => ?_
  have hrelease : ∀ {r : Except CertError (Option Leaf)} {t : Vault},
      Obliging tasks i (.act (.release host) fun _ => .ret r) t := fun {r t} =>
    quiet_tends (A := fun _ => True) trivial (fun _ _ => trivial) trivial
      fun _ _ _ _ _ _ _ _ => ret_obliging r
  cases minted with
  | error error => exact hrelease
  | ok key =>
    have hissuer : key.issuer = ca := by
      simp only [serve] at hserve
      split at hserve
      · cases hserve
      · rw [Option.some.injEq, Prod.mk.injEq, Except.ok.injEq] at hserve
        rw [← hserve.1]
    subst hissuer
    exact storeMinted_tends ht fun current t => hrelease

lemma prewarmHost_obliging (fuel : Nat) (host : Bytes) :
    Obliging tasks i (prewarmHost fuel host) s := by
  induction fuel generalizing s with
  | zero => exact fun _ _ _ x b t hrun => nomatch b
  | succ fuel ih =>
    refine Holds.bind stable_respects (currentCa_tends.mono fun read t ht => ?_)
    cases read with
    | error error => exact ret_obliging _
    | ok pair =>
      obtain ⟨ca, epoch⟩ := pair
      have hcaptured : Captured ca epoch t := ht
      simp only [Prog.lift_bind]
      refine quiet_tends trivial Captured.respects hcaptured fun _ _ now t _ _ _ ht => ?_
      split
      · exact ret_obliging _
      · split
        · exact ret_obliging _
        · refine bind_obliging ?_ fun result t => ?_
          · refine Holds.bind stable_respects
              ((leaseHost_tends Captured.respects fuel host now ht).mono fun leased t ht => ?_)
            cases leased with
            | some key => exact ret_obliging _
            | none => exact mintLeaf_obliging ht
          · cases result with
            | error error => exact ret_obliging _
            | ok found =>
              cases found with
              | some key => exact ret_obliging _
              | none => exact ih

lemma prog_obliging (htask : tasks[i]? = some task) :
    Obliging tasks i (task.prog lib) s := by
  cases task with
  | install certPem keyPem =>
    refine bind_obliging (installCa_obliging ⟨certPem, keyPem, htask⟩ certPem keyPem) fun _ _ => ?_
    exact ret_obliging _
  | prewarm fuel host =>
    refine bind_obliging ?_ fun _ _ => ret_obliging _
    unfold Certs.prewarm
    split
    · exact prewarmHost_obliging fuel _
    · exact ret_obliging _
  | cached host =>
    refine bind_obliging ?_ fun _ _ => ret_obliging _
    unfold cachedLeaf
    split
    · refine quiet_tends (A := fun _ => True) trivial (fun _ _ => trivial) trivial
        fun _ _ now _ _ _ _ _ => ?_
      exact quiet_tends (A := fun _ => True) trivial (fun _ _ => trivial) trivial
        fun _ _ leaf _ _ _ _ _ => ret_obliging leaf
    · exact ret_obliging _

end Threads

section Main

variable {lib : CertLibrary} {tasks : List CertTask}

lemma consistent_opened (files : CertPath → Option Bytes) (archives : Pair → List ArchiveName)
    (slot : Option CaHandle) (imported : Bool) :
    Consistent tasks (CertState.opened files archives slot imported, slot) :=
  ⟨fun _ h => (nomatch h), fun _ => rfl⟩

lemma delivered_mem (hserve : serve l.access.2 l.thread x l.before = some (l.result, l.after))
    (h : Delivers key l) : key ∈ l.after.leaves.keys := by
  obtain ⟨i, ⟨δ, access⟩, b, s, t⟩ := l
  cases access with
  | lease host now =>
    dsimp only at hserve
    obtain ⟨hlease, rfl⟩ := Prod.mk.inj (Option.some.inj hserve)
    exact (LeafCache.lease_keys s.leaves host now).2.1 key (hlease.trans h)
  | storeMinted host epoch minted =>
    dsimp only at hserve
    obtain ⟨hstored, rfl⟩ := Prod.mk.inj (Option.some.inj hserve)
    obtain ⟨hb, rfl⟩ := h
    exact (LeafCache.storeMinted_keys leafCacheCapacity s.leaves host epoch minted
      minted.notAfter).1 (hstored.trans hb)
  | _ => exact h.elim

lemma delivered_same (hserve : serve l.access.2 l.thread x l.before = some (l.result, l.after))
    (h : Delivers key l) (authority : Option CaHandle) :
    l.after.slot = l.before.slot ∧ l.after.locks = l.before.locks ∧
      noteCleared l authority = authority := by
  obtain ⟨i, ⟨δ, access⟩, b, s, t⟩ := l
  cases access with
  | lease | storeMinted =>
    dsimp only at hserve
    cases hserve
    exact ⟨rfl, rfl, rfl⟩
  | _ => exact h.elim

def Got (past : List (Label CertAccess CertState)) (key : Leaf) : Prop :=
  ∃ l ∈ past, Delivers key l

/-- What a thread has got by the end. -/
abbrev Gets (i : Nat) {α : Type} (Q : List (Label CertAccess CertState) → α → Prop) :
    List (Label CertAccess CertState) → Prog CertAccess α → Prop :=
  Along machine i (fun _ _ => True) Q

section Getting

variable {i : Nat} {α : Type} {past : List (Label CertAccess CertState)}

lemma any_gets (p : Prog CertAccess α) : Gets i (fun _ _ => True) past p :=
  Along.of_known (A := fun _ => True) (fun _ _ _ => trivial) (fun _ _ _ => trivial) trivial

lemma leaseHost_gets (fuel : Nat) (host : Bytes) (now : Int) :
    Gets i (fun past leased => ∀ key, leased = some key → Got past key) past
      (leaseHost fuel host now) := by
  induction fuel generalizing past with
  | zero => exact fun x s b t _ => nomatch b
  | succ fuel ih =>
    intro x s lease t _
    refine ⟨trivial, ?_⟩
    cases lease with
    | fresh key =>
      rintro _ ⟨⟩
      exact ⟨_, List.mem_append_right _ (List.mem_singleton_self _), rfl⟩
    | mint => exact fun _ h => (nomatch h)
    | busy => exact ih

lemma mintLeaf_gets (ca : CaHandle) (host : Bytes) (epoch : Nat) :
    Gets i (fun past result => ∀ key, result = .ok (some key) → Got past key) past
      (mintLeaf ca host epoch) := by
  intro x s minted t _
  refine ⟨trivial, ?_⟩
  cases minted with
  | error error => exact fun _ _ _ _ _ => ⟨trivial, fun _ h => (nomatch h)⟩
  | ok minted =>
    refine fun x s current t _ => ⟨trivial, fun x s b t _ => ⟨trivial, fun key hkey => ?_⟩⟩
    cases current with
    | false => exact nomatch hkey
    | true =>
      cases hkey
      refine ⟨_, List.mem_append_left _ (List.mem_append_right _ (List.mem_singleton_self _)), ?_⟩
      exact ⟨rfl, rfl⟩

lemma prewarmHost_gets (fuel : Nat) (host : Bytes) :
    Gets i (fun past result => ∀ key, result = .ok key → Got past key) past
      (prewarmHost fuel host) := by
  induction fuel generalizing past with
  | zero => exact fun x s b t _ => nomatch b
  | succ fuel ih =>
    refine Along.bind ((any_gets currentCa).mono fun past read _ => ?_)
    cases read with
    | error error => exact fun _ h => (nomatch h)
    | ok pair =>
      obtain ⟨ca, epoch⟩ := pair
      simp only [Prog.lift_bind]
      refine fun x s now t _ => ⟨trivial, ?_⟩
      dsimp only
      split
      · exact fun _ h => (nomatch h)
      · split
        · exact fun _ h => (nomatch h)
        · have hwith : ∀ past, Gets i (fun past result => ∀ key, result = .ok (some key) → Got past key)
              past (prewarmWith fuel ca host now epoch) := by
            intro past
            refine Along.bind ((leaseHost_gets fuel host now).mono fun past leased hleased => ?_)
            cases leased with
            | some key =>
              rintro _ ⟨⟩
              exact hleased key rfl
            | none => exact mintLeaf_gets ca host epoch
          refine Along.bind ((hwith _).mono fun past result hresult => ?_)
          cases result with
          | error error => exact fun _ h => (nomatch h)
          | ok found =>
            cases found with
            | some key =>
              rintro _ ⟨⟩
              exact hresult key rfl
            | none => exact ih

lemma prog_gets (lib : CertLibrary) (task : CertTask) :
    Gets i (fun past reply => ∀ key, reply = .prewarmed (.ok key) → Got past key) past
      (task.prog lib) := by
  cases task with
  | install certPem keyPem =>
    exact Along.bind ((any_gets _).mono fun past _ _ _ h => (nomatch h))
  | cached host => exact Along.bind ((any_gets _).mono fun past _ _ _ h => (nomatch h))
  | prewarm fuel host =>
    have hprewarm : Gets i (fun past result => ∀ key, result = .ok key → Got past key) past
        (Certs.prewarm fuel host) := by
      unfold Certs.prewarm
      split
      · exact prewarmHost_gets fuel _
      · exact fun _ h => (nomatch h)
    refine Along.bind (hprewarm.mono fun past result hresult => ?_)
    rintro key ⟨⟩
    exact hresult key rfl

end Getting

/-- **Leaves of the installed authority.** In every run of installations, pre-warms
and lookups on a store that was just opened: when no installation is in its critical
section, every leaf in the cache is of the authority in the slot. And a pre-warm
that ends with a leaf got it in a step at which the leaf's authority was that in the
slot when the cache was last emptied; if no installation was in its critical section
at that step, it was still in the slot. -/
theorem leaves_of_installed {files : CertPath → Option Bytes} {archives : Pair → List ArchiveName}
    {slot : Option CaHandle} {imported : Bool} {labels : List (Label CertAccess CertState)}
    {c : Pool CertAccess CertState CertReply}
    (hrun : Pool.Run machine ⟨CertState.opened files archives slot imported,
      tasks.map (CertTask.prog lib)⟩ labels c) :
    (Quiescent tasks c.state → ∀ key ∈ c.state.leaves.keys, c.state.slot = some key.issuer) ∧
      ∀ (i : Nat) (key : Leaf), c.threads[i]? = some (.ret (.prewarmed (.ok key))) →
        ∃ first l rest, labels = first ++ l :: rest ∧ l.thread = i ∧ Delivers key l ∧
          recorded noteCleared slot first = some key.issuer ∧
          (Quiescent tasks l.before → l.before.slot = some key.issuer) := by
  have hthread : ∀ (i : Nat) (p : Prog CertAccess CertReply), (tasks.map (CertTask.prog lib))[i]? = some p →
      ∃ task : CertTask, tasks[i]? = some task ∧ p = task.prog lib := by
    intro i p hp
    rw [List.getElem?_map, Option.map_eq_some_iff] at hp
    obtain ⟨task, htask, rfl⟩ := hp
    exact ⟨task, htask, rfl⟩
  have htracked : Pool.Run tracked _ _ _ := hrun.ghost slot
  have hothers : ∀ i j, i ≠ j → ∀ s t, Consistent tasks s → OthersRespect i s t → Respects j s t :=
    fun i j hij s t _ h => h j (Ne.symm hij)
  obtain ⟨hend, hlabels, -⟩ := htracked.holds (Q := fun _ _ _ => True) stable_respects hothers
    (consistent_opened files archives slot imported) fun i p hp => by
      obtain ⟨task, htask, rfl⟩ := hthread i p hp
      exact prog_obliging htask
  refine ⟨fun hquiet key hkey => ?_, fun i key hdone => ?_⟩
  · rw [hend.inStep hquiet]
    exact hend.keys key hkey
  · have hlt : i < (tasks.map (CertTask.prog lib)).length := by
      rw [← hrun.threads_length]
      exact (List.getElem?_eq_some_iff.mp hdone).1
    obtain ⟨task, -, hp⟩ := hthread i _ (List.getElem?_eq_getElem hlt)
    have hprog : (tasks.map (CertTask.prog lib))[i]? = some (task.prog lib) := by
      rw [List.getElem?_eq_getElem hlt, hp]
    obtain ⟨p', hp', hsteps⟩ := hrun.steps hprog
    obtain rfl : Prog.ret (CertReply.prewarmed (.ok key)) = p' :=
      Option.some.inj (hdone.symm.trans hp')
    obtain ⟨l, hl, hdelivers⟩ := (prog_gets lib task : Gets i _ [] _).result hsteps key rfl
    obtain ⟨hl, hi⟩ := List.mem_filter.mp hl
    obtain ⟨first, rest, rfl⟩ := List.append_of_mem hl
    obtain ⟨x, hserve⟩ := hrun.performs l hl
    have hm : l.noted noteCleared (recorded noteCleared slot first) ∈
        annotate noteCleared slot (first ++ l :: rest) := mem_annotate.mpr ⟨first, l, rest, rfl, rfl⟩
    have hbefore := (hlabels _ hm).1
    have hafter := htracked.after (I := Consistent tasks) (fun m hm => (hlabels m hm).1) hend _ hm
    obtain ⟨-, -, hauthority⟩ := delivered_same hserve hdelivers (recorded noteCleared slot first)
    have hissuer : recorded noteCleared slot first = some key.issuer := by
      rw [← hauthority]
      exact hafter.keys key (delivered_mem hserve hdelivers)
    refine ⟨first, l, rest, rfl, eq_of_beq hi, hdelivers, hissuer, fun hquiet => ?_⟩
    exact (hbefore.inStep hquiet).trans hissuer

end Main

def joinDers (ders : List Bytes) : Bytes :=
  ders.flatMap fun der => der.flatMap (fun byte : UInt8 => [1, byte]) ++ [0]

def splitDers : Bytes → Bytes → List Bytes
  | [], _ => []
  | [_], der => [der]
  | mark :: byte :: rest, der =>
    if mark = 0 then der :: splitDers (byte :: rest) [] else splitDers rest (der ++ [byte])

lemma splitDers_joinDers (ders : List Bytes) : splitDers (joinDers ders) [] = ders := by
  have hder : ∀ (der rest seen : Bytes),
      splitDers (der.flatMap (fun byte : UInt8 => [1, byte]) ++ 0 :: rest) seen =
        (seen ++ der) :: splitDers rest [] := by
    intro der rest
    induction der with
    | nil =>
      cases rest with
      | nil | cons => simp [splitDers]
    | cons byte der ih =>
      simp [splitDers, ih]
  induction ders with
  | nil => rfl
  | cons der ders ih =>
    rw [joinDers, List.flatMap_cons, ← joinDers, List.append_assoc, List.singleton_append, hder, ih]
    rfl

def plainLibrary : CertLibrary where
  certificates text := .ok (splitDers text [])
  certificatePem := joinDers
  parseCertificate der := .ok ⟨true, none, der, 0, 2 ^ 40, []⟩
  keyPair text := .ok text
  privateKey text := .ok (some text)
  publicKey key := .ok (some key)
  issuer _ := .ok ()
  fingerprint der := der
  singleCert
    | der :: _, key => if key = der then .ok () else .error (lit "keys do not match")
    | [], _ => .error (lit "no certificates")
  certificates_pem ders := congrArg Except.ok (splitDers_joinDers ders)
  singleCert_ok := by
    intro der rest key
    dsimp only
    constructor
    · intro h
      split at h
      next hkey => exact ⟨_, rfl, by rw [hkey]⟩
      · cases h
    · rintro ⟨parsed, hparsed, hkey⟩
      cases hparsed
      exact if_pos (Option.some.inj (Except.ok.inj hkey))

def oldKey : Bytes := [1]

def newKey : Bytes := [2]

def sampleHandle (key : Bytes) : CaHandle := ⟨key, joinDers [key], key, ⟨key, 0, 2 ^ 40, []⟩⟩

def sampleFiles : CertPath → Option Bytes
  | .live _ .cert => some (joinDers [oldKey])
  | .live _ .key => some oldKey
  | _ => none

def sampleStore : CertState := .opened sampleFiles (fun _ => []) (some (sampleHandle oldKey)) false

def Chance.fine : Chance := ⟨none, 7, []⟩

def sampleHost : Bytes := lit "a.example"

/-- The leaf a prewarm has ended with. -/
def leafAt (threads : List (Prog CertAccess CertReply)) (i : Nat) : Option Leaf :=
  match threads[i]? with
  | some (.ret (.prewarmed (.ok key))) => some key
  | _ => none

lemma thread_of_leafAt (h : leafAt threads i = some key) :
    threads[i]? = some (.ret (.prewarmed (.ok key))) := by
  unfold leafAt at h
  split at h
  next hthread =>
    cases h
    exact hthread
  · cases h

theorem leaves_of_installed_prewarm :
    ∃ labels c key, Pool.Run machine ⟨sampleStore,
        [CertTask.prewarm 2 sampleHost].map (CertTask.prog plainLibrary)⟩ labels c ∧
      c.threads[0]? = some (.ret (.prewarmed (.ok key))) ∧
      (Quiescent [.prewarm 2 sampleHost] c.state →
        ∀ key ∈ c.state.leaves.keys, c.state.slot = some key.issuer) ∧
      ∃ first l rest, labels = first ++ l :: rest ∧ l.thread = 0 ∧ Delivers key l ∧
        recorded noteCleared (some (sampleHandle oldKey)) first = some key.issuer := by
  obtain ⟨⟨labels, c⟩, hexec, hr⟩ := (Option.any_eq_true _ _).mp
    (show (Pool.exec machine (⟨sampleStore,
        [CertTask.prewarm 2 sampleHost].map (CertTask.prog plainLibrary)⟩ :
          Pool CertAccess CertState CertReply) (List.replicate 9 (0, .fine))).any
      (fun p => (leafAt p.2.threads 0).isSome) = true by decide +kernel)
  have hrun := Pool.run_of_exec hexec
  obtain ⟨key, hkey⟩ := Option.isSome_iff_exists.mp hr
  have hdone := thread_of_leafAt hkey
  obtain ⟨hcache, hends⟩ := leaves_of_installed hrun
  obtain ⟨first, l, rest, hlabels, hthread, hdelivers, hissuer, -⟩ := hends 0 key hdone
  exact ⟨labels, c, key, hrun, hdone, hcache, first, l, rest, hlabels, hthread, hdelivers, hissuer⟩

def replacingTasks : List CertTask :=
  [.install (joinDers [newKey]) newKey, .prewarm 2 sampleHost]

/-- A pre-warm mints a leaf; an installation replaces the authority; the pre-warm
stores its leaf before the installation empties the cache. -/
def replacingSchedule : List (Nat × Chance) :=
  List.replicate 7 (1, .fine) ++ List.replicate 20 (0, .fine) ++ List.replicate 2 (1, .fine)

instance (key : Leaf) (l : Label CertAccess CertState) : Decidable (Delivers key l) := by
  unfold Delivers
  split <;> infer_instance

/-- **A leaf of a replaced authority.** -/
theorem leaf_of_replaced :
    ∃ labels c key first l rest,
      Pool.Run machine ⟨sampleStore, replacingTasks.map (CertTask.prog plainLibrary)⟩ labels c ∧
      c.threads[1]? = some (.ret (.prewarmed (.ok key))) ∧
      labels = first ++ l :: rest ∧ l.thread = 1 ∧ Delivers key l ∧
      (∀ m ∈ labels, m.thread = 1 → Delivers key m → m.before.slot = l.before.slot) ∧
      key.issuer = sampleHandle oldKey ∧ l.before.slot = some (sampleHandle newKey) := by
  obtain ⟨⟨labels, c⟩, hexec, hr⟩ := (Option.any_eq_true _ _).mp
    (show (Pool.exec machine (⟨sampleStore,
        replacingTasks.map (CertTask.prog plainLibrary)⟩ :
          Pool CertAccess CertState CertReply) replacingSchedule).any
      (fun p => (leafAt p.2.threads 1).any fun key => p.1[27]?.any fun l =>
          decide (l.thread = 1 ∧ Delivers key l ∧
            (∀ m ∈ p.1, m.thread = 1 → Delivers key m → m.before.slot = l.before.slot) ∧
            key.issuer = sampleHandle oldKey ∧ l.before.slot = some (sampleHandle newKey)))
        = true by decide +kernel)
  have hrun := Pool.run_of_exec hexec
  obtain ⟨key, hkey, hr⟩ := (Option.any_eq_true _ _).mp hr
  obtain ⟨l, hlabel, hfacts⟩ := (Option.any_eq_true _ _).mp hr
  obtain ⟨hlt, rfl⟩ := List.getElem?_eq_some_iff.mp hlabel
  refine ⟨labels, c, key, labels.take 27, _, labels.drop 28, hrun, thread_of_leafAt hkey, ?_,
    of_decide_eq_true hfacts⟩
  rw [List.getElem_cons_drop, List.take_append_drop]

end FastAdHunter.Certs
