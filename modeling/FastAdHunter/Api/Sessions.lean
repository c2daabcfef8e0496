import FastAdHunter.Api.Auth

/-!
# Sessions and the password

A ledger beside the state remembers every minted token with its key and the hash
its login was checked against, and which secrets were drawn before the password
change that wrote the hash on the disk. It goes on over the lives of the processes:
each starts by building its state from the disk the last one left, wherever that
one stopped. A process at its start has the lock to itself.
-/

namespace FastAdHunter.Api.Auth

open Lib List

section Ledgers

/-- A token, the key it was minted with, and the hash against which a password was
found right before. -/
structure Mint where
  token : Bytes
  key : Bytes
  checked : Option Bytes
  deriving DecidableEq

/-- For each thread the hash it last found a password right against and how many
secrets were drawn when it took the lock; all tokens; and how many secrets were
drawn before the change that wrote the hash on the disk. -/
structure AuthLedger where
  checked : Nat → Option Bytes
  mints : List Mint
  lockedAt : Nat → Nat
  floor : Nat

def note (l : Label AuthAccess AuthState) (g : AuthLedger) : AuthLedger :=
  match l with
  | ⟨i, ⟨_, .verifyPassword hash _⟩, result, _, _⟩ =>
    match result with
    | some (.ok true) => { g with checked := Function.update g.checked i (some hash) }
    | _ => g
  | ⟨i, ⟨_, .mint key⟩, token, _, _⟩ => { g with mints := ⟨token, key, g.checked i⟩ :: g.mints }
  | ⟨i, ⟨_, .lockWrite⟩, _, before, _⟩ =>
    { g with lockedAt := Function.update g.lockedAt i before.drawn.length }
  | ⟨i, ⟨_, .rename .hash⟩, result, _, _⟩ =>
    match result with
    | .ok () => { g with floor := g.lockedAt i }
    | .error _ => g
  | _ => g

/-- What outlives a process. -/
structure Remains where
  disk : AuthFile → Option Bytes
  tmp : AuthFile → Option Bytes
  drawn : List Bytes
  mints : List Mint
  floor : Nat

/-- Nothing was ever stored. -/
def Remains.nothing : Remains := ⟨fun _ => none, fun _ => none, [], [], 0⟩

def Remains.start (r : Remains) : AuthState where
  disk := r.disk
  tmp := r.tmp
  hash := []
  secret := []
  readers := []
  writer := some 0
  permits := argon2Permits
  drawn := r.drawn

def Remains.ledger (r : Remains) : AuthLedger :=
  ⟨fun _ => none, r.mints, fun _ => r.drawn.length, r.floor⟩

/-- What a process leaves when it stops. -/
def leftBy (s : AuthState) (g : AuthLedger) : Remains :=
  ⟨s.disk, s.tmp, s.drawn, g.mints, g.floor⟩

/-- A process begins to serve. -/
def AuthState.serving (s : AuthState) (built : Built) : AuthState :=
  { s with hash := built.hash, secret := built.secret, writer := none }

variable (lib : AuthLibrary)

/-- The lives of the processes, with a condition on the steps of their requests:
each builds its state and may stop while it does, or else serves and stops at some
point. -/
inductive History (good : Label AuthAccess AuthState → Prop) : Remains → Prop
  | nothing : History good .nothing
  | building {r : Remains} {labels : List (Label AuthAccess AuthState)}
      {c : Pool AuthAccess AuthState (Except Bytes Built)} :
      History good r → Pool.Run (machine lib) ⟨r.start, [build]⟩ labels c →
        History good (leftBy c.state (recorded note r.ledger labels))
  | serving {r : Remains} {labels labels' : List (Label AuthAccess AuthState)} {s : AuthState}
      {built : Built} {tasks : List AuthTask} {c : Pool AuthAccess AuthState AuthReply} :
      History good r →
        Pool.Run (machine lib) ⟨r.start, [build]⟩ labels ⟨s, [.ret (.ok built)]⟩ →
        Pool.Run (machine lib) ⟨s.serving built, tasks.map (AuthTask.prog lib)⟩ labels' c →
        (∀ l ∈ labels', good l) →
        History good (leftBy c.state (recorded note (recorded note r.ledger labels) labels'))

/-- Setting the permissions of the hash, once it is in place, does not fail. -/
def HashKept {σ : Type} : Label AuthAccess σ → Prop
  | ⟨_, ⟨_, .restrict .hash⟩, result, _, _⟩ => result = .ok ()
  | _ => True

/-- Nobody has made this token up: where it verifies, it was minted. -/
def Unforged (mints : List Mint) (token : Bytes) : Prop :=
  ∀ key now, verify lib key token now = true → ∃ m ∈ mints, m.token = token ∧ m.key = key

end Ledgers

abbrev World := AuthState × AuthLedger

/-- Tokens agree with what is in memory and with what is on the disk. -/
structure Sound (s : World) : Prop where
  sized : ∀ k ∈ s.1.drawn, k.length = secretBytes
  keys : ∀ m ∈ s.2.mints, m.key ∈ s.1.drawn
  paired : ∀ m ∈ s.2.mints, m.key = s.1.secret → m.checked = some s.1.hash
  diskPaired : ∀ m ∈ s.2.mints, loadSecret (s.1.disk .secret) = some m.key →
    m.checked = storedHash (s.1.disk .hash)
  diskDrawn : ∀ k, loadSecret (s.1.disk .secret) = some k →
    k ∈ s.1.drawn ∧ k ∉ s.1.drawn.take s.2.floor
  floor_le : s.2.floor ≤ s.1.drawn.length
  exclusive : s.1.writer ≠ none → s.1.readers = []
  whole : s.1.writer = none →
    storedHash (s.1.disk .hash) = some s.1.hash ∧ s.1.secret ∈ s.1.drawn

/-- The same in all that a writer has to itself, the temporary files apart. -/
structure SameCore (s t : World) : Prop where
  disk : t.1.disk = s.1.disk
  hash : t.1.hash = s.1.hash
  secret : t.1.secret = s.1.secret
  readers : t.1.readers = s.1.readers
  writer : t.1.writer = s.1.writer
  drawn : t.1.drawn = s.1.drawn
  mints : t.2.mints = s.2.mints
  floor : t.2.floor = s.2.floor

lemma SameCore.refl (s : World) : SameCore s s := ⟨rfl, rfl, rfl, rfl, rfl, rfl, rfl, rfl⟩

lemma SameCore.trans (hst : SameCore s t) (htu : SameCore t u) : SameCore s u :=
  ⟨htu.disk.trans hst.disk, htu.hash.trans hst.hash, htu.secret.trans hst.secret,
    htu.readers.trans hst.readers, htu.writer.trans hst.writer, htu.drawn.trans hst.drawn,
    htu.mints.trans hst.mints, htu.floor.trans hst.floor⟩

lemma Sound.same (h : Sound s) (hst : SameCore s t) : Sound t := by
  obtain ⟨hdisk, hhash, hsecret, hreaders, hwriter, hdrawn, hmints, hfloor⟩ := hst
  constructor
  · rw [hdrawn]
    exact h.sized
  · rw [hdrawn, hmints]
    exact h.keys
  · rw [hmints, hsecret, hhash]
    exact h.paired
  · rw [hmints, hdisk]
    exact h.diskPaired
  · rw [hdisk, hdrawn, hfloor]
    exact h.diskDrawn
  · rw [hdrawn, hfloor]
    exact h.floor_le
  · rw [hwriter, hreaders]
    exact h.exclusive
  · rw [hwriter, hdisk, hhash, hsecret, hdrawn]
    exact h.whole

/-- What the others leave a thread: a reader what is in memory, a writer
everything, and each its own entries of the ledger. -/
structure Leaves (i : Nat) (s t : World) : Prop where
  reading : i ∈ s.1.readers →
    i ∈ t.1.readers ∧ t.1.secret = s.1.secret ∧ t.1.hash = s.1.hash
  writing : s.1.writer = some i → SameCore s t ∧ t.1.tmp = s.1.tmp
  checked : t.2.checked i = s.2.checked i
  lockedAt : t.2.lockedAt i = s.2.lockedAt i

def Others (i : Nat) (s t : World) : Prop := ∀ j, j ≠ i → Leaves j s t

lemma stable_leaves : Stable Leaves where
  refl := fun i s => ⟨fun h => ⟨h, rfl, rfl⟩, fun _ => ⟨.refl s, rfl⟩, rfl, rfl⟩
  trans := by
    intro i s t u hst htu
    refine ⟨fun h => ?_, fun h => ?_, htu.checked.trans hst.checked,
      htu.lockedAt.trans hst.lockedAt⟩
    · obtain ⟨ht, hsecret, hhash⟩ := hst.reading h
      obtain ⟨hu, hsecret', hhash'⟩ := htu.reading ht
      exact ⟨hu, hsecret'.trans hsecret, hhash'.trans hhash⟩
    · obtain ⟨hcore, htmp⟩ := hst.writing h
      obtain ⟨hcore', htmp'⟩ := htu.writing (hcore.writer.trans h)
      exact ⟨hcore.trans hcore', htmp'.trans htmp⟩

lemma SameCore.leaves (h : SameCore s t) (htmp : t.1.tmp = s.1.tmp)
    (hchecked : t.2.checked j = s.2.checked j) (hlocked : t.2.lockedAt j = s.2.lockedAt j) :
    Leaves j s t := by
  refine ⟨fun hj => ⟨?_, h.secret, h.hash⟩, fun _ => ⟨h, htmp⟩, hchecked, hlocked⟩
  rw [h.readers]
  exact hj

lemma others_of_writer (hsound : Sound s) (hwriter : s.1.writer = some i)
    (hledger : ∀ j, j ≠ i → t.2.checked j = s.2.checked j ∧ t.2.lockedAt j = s.2.lockedAt j) :
    Others i s t := by
  intro j hj
  refine ⟨fun hreads => ?_, fun hwrites => ?_, (hledger j hj).1, (hledger j hj).2⟩
  · rw [hsound.exclusive (by rw [hwriter]; exact Option.some_ne_none i)] at hreads
    cases hreads
  · rw [hwriter, Option.some.injEq] at hwrites
    exact absurd hwrites.symm hj

section Rules

variable (lib : AuthLibrary) (kept : Bool)

instance {σ : Type} (l : Label AuthAccess σ) : Decidable (HashKept l) := by
  unfold HashKept
  split <;> infer_instance

/-- The requests with the ledger; where the flag is set, no password change fails
after its rename. -/
def watched : Machine AuthAccess World Chance :=
  ((machine lib).ghost note).restrict fun m => kept = true → HashKept m

/-- What a thread does to tokens and files. -/
abbrev Minds (i : Nat) {α : Type} (Q : α → World → Prop) : Prog AuthAccess α → World → Prop :=
  Holds (watched lib kept) Sound Leaves Others i Q

variable {lib kept} {i : Nat} {α β : Type} {Q : α → World → Prop} {s : World}

lemma watched_run (h : (watched lib kept).run access i x s = some (b, t)) :
    serve lib access i x s.1 = some (b, t.1) ∧ t.2 = note ⟨i, ⟨β, access⟩, b, s.1, t.1⟩ s.2 ∧
      (kept = true → HashKept ⟨i, ⟨β, access⟩, b, s, t⟩) := by
  obtain ⟨hghost, hkept⟩ := Machine.restrict_run h
  obtain ⟨hserve, hnote⟩ := Machine.ghost_run hghost
  exact ⟨hserve, hnote, hkept⟩

/-- An access that changes nothing but the permits, and of which nothing is
noted. -/
def AuthAccess.Idle : {β : Type} → AuthAccess β → Prop
  | _, .createDir _ => True
  | _, .restrictTmp _ => True
  | _, .restrict _ => True
  | _, .readFile _ => True
  | _, .drawBytes => True
  | _, .readSecret => True
  | _, .loadHash => True
  | _, .hashPassword _ => True
  | _, .now => True
  | _, .checkRate => True
  | _, .tryPermit => True
  | _, .dropPermit => True
  | _, _ => False

lemma attempt_same {s t : AuthState} (h : attempt x s s = some (b, t)) : t = s := by
  unfold attempt at h
  split at h
  all_goals
    cases h
    rfl

lemma idle_same (hidle : access.Idle) (hserve : serve lib access i x s.1 = some (b, t.1))
    (hnote : t.2 = note ⟨i, ⟨β, access⟩, b, s.1, t.1⟩ s.2) :
    SameCore s t ∧ t.1.tmp = s.1.tmp ∧ t.2 = s.2 := by
  obtain ⟨t, g⟩ := t
  have hsame : ∀ {t' : AuthState}, t = t' → g = s.2 → t'.disk = s.1.disk → t'.hash = s.1.hash →
      t'.secret = s.1.secret → t'.readers = s.1.readers → t'.writer = s.1.writer →
      t'.drawn = s.1.drawn → t'.tmp = s.1.tmp →
      SameCore s (t, g) ∧ t.tmp = s.1.tmp ∧ g = s.2 := by
    rintro t' rfl rfl h1 h2 h3 h4 h5 h6 h7
    exact ⟨⟨h1, h2, h3, h4, h5, h6, rfl, rfl⟩, h7, rfl⟩
  cases access with
  | createDir | restrictTmp => exact hsame (attempt_same hserve) hnote rfl rfl rfl rfl rfl rfl rfl
  | restrict file =>
    refine hsame (attempt_same hserve) ?_ rfl rfl rfl rfl rfl rfl rfl
    exact hnote
  | hashPassword password =>
    have ht : t = s.1 := by
      simp only [serve] at hserve
      split at hserve
      · cases hserve
        rfl
      · split at hserve
        all_goals
          cases hserve
          rfl
    exact hsame ht hnote rfl rfl rfl rfl rfl rfl rfl
  | tryPermit =>
    simp only [serve] at hserve
    split at hserve
    all_goals
      cases hserve
      exact hsame rfl hnote rfl rfl rfl rfl rfl rfl rfl
  | readFile | drawBytes | readSecret | loadHash | now | checkRate | dropPermit =>
    cases hserve
    exact hsame rfl hnote rfl rfl rfl rfl rfl rfl rfl
  | _ => exact hidle.elim

lemma Minds.idle {next : β → Prog AuthAccess α} {A : World → Prop}
    (hidle : access.Idle) (hA : ∀ {s t}, A s → Leaves i s t → A t) (hs : A s)
    (hnext : ∀ x s' b t, A s' → serve lib access i x s'.1 = some (b, t.1) →
      (kept = true → HashKept ⟨i, ⟨β, access⟩, b, s', t⟩) → SameCore s' t → t.1.tmp = s'.1.tmp →
      A t → Minds lib kept i Q (next b) t) : Minds lib kept i Q (.act access next) s := by
  intro s' hrely hsound x b t hrun
  obtain ⟨hserve, hnote, hkept⟩ := watched_run hrun
  obtain ⟨hcore, htmp, hledger⟩ := idle_same hidle hserve hnote
  have hleaves : ∀ j, Leaves j s' t := fun j =>
    hcore.leaves htmp (by rw [hledger]) (by rw [hledger])
  have hs' := hA hs hrely
  exact ⟨fun j _ => hleaves j, hsound.same hcore,
    hnext x s' b t hs' hserve hkept hcore htmp (hA hs' (hleaves i))⟩

lemma Minds.act {next : β → Prog AuthAccess α} {A : World → Prop}
    (hA : ∀ {s t}, A s → Leaves i s t → A t) (hs : A s)
    (hnext : ∀ x s' b t, A s' → Sound s' → serve lib access i x s'.1 = some (b, t.1) →
      t.2 = note ⟨i, ⟨β, access⟩, b, s'.1, t.1⟩ s'.2 →
      Others i s' t ∧ Sound t ∧ Minds lib kept i Q (next b) t) :
    Minds lib kept i Q (.act access next) s := by
  intro s' hrely hsound x b t hrun
  obtain ⟨hserve, hnote, -⟩ := watched_run hrun
  exact hnext x s' b t (hA hs hrely) hsound hserve hnote

lemma Minds.ret {A : World → Prop} (hA : ∀ {s t}, A s → Leaves i s t → A t) (hs : A s)
    (hQ : ∀ t, A t → Q a t) : Minds lib kept i Q (.ret a) s :=
  fun t hst => hQ t (hA hs hst)

end Rules

section Writing

variable (lib : AuthLibrary) (kept : Bool) {i : Nat} {α β : Type} {Q : α → World → Prop} {s : World}

/-- What the thread that has the lock for writing knows, whatever the temporary
files hold. -/
structure Private (i : Nat) (P : World → Prop) : Prop where
  writer : ∀ {s}, P s → s.1.writer = some i
  closed : ∀ {s t}, P s → SameCore s t → t.2.lockedAt i = s.2.lockedAt i → P t

variable {P : World → Prop} {file : AuthFile} {contents : Bytes}

lemma Private.leaves (hP : Private i P) (hs : P s) (hst : Leaves i s t) : P t :=
  hP.closed hs (hst.writing (hP.writer hs)).1 hst.lockedAt

def moved (i : Nat) (file : AuthFile) (contents : Bytes) (s : World) : World :=
  ({ s.1 with
      disk := Function.update s.1.disk file (some contents)
      tmp := Function.update s.1.tmp file none },
    match file with
    | .hash => { s.2 with floor := s.2.lockedAt i }
    | .secret => s.2)

lemma removeTmp_holds (hP : Private i P) (file : AuthFile) {next : Unit → Prog AuthAccess α}
    (hs : P s) (hnext : ∀ t, P t → Minds lib kept i Q (next ()) t) :
    Minds lib kept i Q (.act (.removeTmp file) next) s := by
  refine Minds.act hP.leaves hs ?_
  rintro x s' b ⟨t, g⟩ hs' hsound hserve (rfl : g = s'.2)
  have hcore : SameCore s' (t, s'.2) := by
    simp only [serve] at hserve
    split at hserve
    all_goals
      cases hserve
      exact ⟨rfl, rfl, rfl, rfl, rfl, rfl, rfl, rfl⟩
  exact ⟨others_of_writer hsound (hP.writer hs') fun _ _ => ⟨rfl, rfl⟩, hsound.same hcore,
    hnext _ (hP.closed hs' hcore rfl)⟩

lemma Private.staged (hP : Private i P) (hs : P s ∧ s.1.tmp file = some contents) (hst : Leaves i s t) :
    P t ∧ t.1.tmp file = some contents :=
  ⟨hP.leaves hs.1 hst, by rw [(hst.writing (hP.writer hs.1)).2]; exact hs.2⟩

lemma rename_cases (htmp : s.1.tmp file = some contents)
    (hserve : serve lib (.rename file) i x s.1 = some (b, t.1))
    (hnote : t.2 = note ⟨i, ⟨_, .rename file⟩, b, s.1, t.1⟩ s.2) :
    (∃ error, b = .error error) ∧ t = s ∨ b = .ok () ∧ t = moved i file contents s := by
  obtain ⟨t, g⟩ := t
  simp only [serve, htmp, attempt] at hserve
  split at hserve
  · cases hserve
    obtain rfl : g = s.2 := by cases file <;> exact hnote
    exact .inl ⟨⟨_, rfl⟩, rfl⟩
  · cases hserve
    refine .inr ⟨rfl, ?_⟩
    cases file
    all_goals
      cases hnote
      rfl

/-- The file is replaced; or the write has failed, and it is as it was unless only
its permissions could not be set. -/
def Written (file : AuthFile) (P R : World → Prop) : Except Bytes Unit → World → Prop
  | .ok (), t => R t
  | .error _, t => P t ∨ R t ∧ (kept = true → file ≠ .hash)

/-- **A staged write**, wherever it fails. -/
theorem stageWrite_holds {R : World → Prop} (hP : Private i P) (hR : Private i R)
    (hmove : ∀ s, P s → Sound s → Sound (moved i file contents s) ∧ R (moved i file contents s))
    (hs : P s) : Minds lib kept i (Written kept file P R) (stageWrite file contents) s := by
  have hfail : ∀ error t, P t →
      Minds lib kept i (Written kept file P R) (.ret (.error error)) t :=
    fun error t ht => Minds.ret hP.leaves ht fun u hu => .inl hu
  simp only [stageWrite, Prog.lift_bind]
  refine Minds.idle trivial hP.leaves hs fun _ _ b t _ _ _ _ _ ht => ?_
  cases b with
  | error error => exact hfail error t ht
  | ok _ =>
    refine Minds.act hP.leaves ht ?_
    rintro x s' b ⟨t, g⟩ hs' hsound hserve (rfl : g = s'.2)
    have hothers : Others i s' (t, s'.2) :=
      others_of_writer hsound (hP.writer hs') fun _ _ => ⟨rfl, rfl⟩
    simp only [serve, attempt] at hserve
    split at hserve
    · cases hserve
      have hcore : SameCore s' ({ s'.1 with tmp := Function.update s'.1.tmp file x.left }, s'.2) :=
        ⟨rfl, rfl, rfl, rfl, rfl, rfl, rfl, rfl⟩
      exact ⟨hothers, hsound.same hcore,
        removeTmp_holds lib kept hP file (hP.closed hs' hcore rfl) (hfail _)⟩
    · cases hserve
      have hcore : SameCore s'
          ({ s'.1 with tmp := Function.update s'.1.tmp file (some contents) }, s'.2) :=
        ⟨rfl, rfl, rfl, rfl, rfl, rfl, rfl, rfl⟩
      refine ⟨hothers, hsound.same hcore, ?_⟩
      have hstaged : P ({ s'.1 with tmp := Function.update s'.1.tmp file (some contents) }, s'.2) ∧
          Function.update s'.1.tmp file (some contents) file = some contents :=
        ⟨hP.closed hs' hcore rfl, Function.update_self ..⟩
      refine Minds.idle (A := fun s => P s ∧ s.1.tmp file = some contents) trivial hP.staged hstaged
        fun _ _ b t _ _ _ _ _ ht => ?_
      cases b with
      | error error => exact removeTmp_holds lib kept hP file ht.1 (hfail error)
      | ok _ =>
        refine Minds.act hP.staged ht ?_
        rintro x s' b t ⟨hs', htmp⟩ hsound hserve hnote
        obtain ⟨⟨error, rfl⟩, rfl⟩ | ⟨rfl, rfl⟩ := rename_cases lib htmp hserve hnote
        · exact ⟨others_of_writer hsound (hP.writer hs') fun _ _ => ⟨rfl, rfl⟩, hsound,
            removeTmp_holds lib kept hP file hs' (hfail _)⟩
        · obtain ⟨hsound', hR'⟩ := hmove s' hs' hsound
          refine ⟨others_of_writer hsound (hP.writer hs') fun _ _ => ?_, hsound', ?_⟩
          · cases file <;> exact ⟨rfl, rfl⟩
          · refine Minds.idle trivial hR.leaves hR' fun _ s' b t _ _ hkept _ _ ht => ?_
            cases b with
            | ok _ => exact Minds.ret hR.leaves ht fun u hu => hu
            | error error =>
              refine Minds.ret hR.leaves ht fun u hu => .inr ⟨hu, fun hkeep => ?_⟩
              rintro rfl
              exact nomatch hkept hkeep

/-- The lock is held for writing, with this hash on the disk and this secret and
hash in memory; a new process has no secret yet. -/
structure Holder (i : Nat) (stored : Option Bytes) (secret hash : Bytes) (s : World) : Prop where
  writer : s.1.writer = some i
  stored_eq : storedHash (s.1.disk .hash) = stored
  secret_eq : s.1.secret = secret
  hash_eq : s.1.hash = hash
  drawn : secret = [] ∨ secret ∈ s.1.drawn
  floor_le : s.2.floor ≤ s.2.lockedAt i
  locked_le : s.2.lockedAt i ≤ s.1.drawn.length

/-- A secret drawn since the lock was taken, under which nothing is minted. -/
structure Fresh (i : Nat) (key : Bytes) (s : World) : Prop where
  length : key.length = secretBytes
  drawn : key ∈ s.1.drawn
  late : key ∉ s.1.drawn.take (s.2.lockedAt i)
  unused : ∀ m ∈ s.2.mints, m.key ≠ key

variable {stored : Option Bytes} {secret hash key : Bytes}

lemma Holder.closed (h : Holder i stored secret hash s) (hst : SameCore s t)
    (hlocked : t.2.lockedAt i = s.2.lockedAt i) : Holder i stored secret hash t := by
  constructor
  · rw [hst.writer, h.writer]
  · rw [hst.disk, h.stored_eq]
  · rw [hst.secret, h.secret_eq]
  · rw [hst.hash, h.hash_eq]
  · rw [hst.drawn]
    exact h.drawn
  · rw [hst.floor, hlocked]
    exact h.floor_le
  · rw [hst.drawn, hlocked]
    exact h.locked_le

lemma Fresh.closed (h : Fresh i key s) (hst : SameCore s t)
    (hlocked : t.2.lockedAt i = s.2.lockedAt i) : Fresh i key t := by
  constructor
  · exact h.length
  · rw [hst.drawn]
    exact h.drawn
  · rw [hst.drawn, hlocked]
    exact h.late
  · rw [hst.mints]
    exact h.unused

lemma holder_private : Private i (Holder i stored secret hash) :=
  ⟨fun h => h.writer, fun h => h.closed⟩

/-- A fresh secret is drawn, and not yet on the disk. -/
def Drew (i : Nat) (stored : Option Bytes) (secret hash key : Bytes) (s : World) : Prop :=
  Holder i stored secret hash s ∧ Fresh i key s

lemma drew_private : Private i (Drew i stored secret hash key) :=
  ⟨fun h => h.1.writer, fun h hst hlocked => ⟨h.1.closed hst hlocked, h.2.closed hst hlocked⟩⟩

/-- The fresh secret is on the disk. -/
def Placed (i : Nat) (stored : Option Bytes) (secret hash key : Bytes) (s : World) : Prop :=
  Drew i stored secret hash key s ∧ loadSecret (s.1.disk .secret) = some key

lemma placed_private : Private i (Placed i stored secret hash key) where
  writer := fun h => h.1.1.writer
  closed := by
    intro s t h hst hlocked
    refine ⟨drew_private.closed h.1 hst hlocked, ?_⟩
    rw [hst.disk]
    exact h.2

lemma Fresh.sound (hfresh : Fresh i key t) (hsound : Sound s)
    (hwriter : t.1.writer = some i) (hload : loadSecret (t.1.disk .secret) = some key)
    (hfloor : t.2.floor ≤ t.2.lockedAt i) (hlocked : t.2.lockedAt i ≤ t.1.drawn.length)
    (hdrawn : t.1.drawn = s.1.drawn) (hmints : t.2.mints = s.2.mints) (hreaders : t.1.readers = [])
    (hpaired : ∀ m ∈ t.2.mints, m.key = t.1.secret → m.checked = some t.1.hash) : Sound t where
  sized := by
    rw [hdrawn]
    exact hsound.sized
  keys := by
    rw [hdrawn, hmints]
    exact hsound.keys
  paired := hpaired
  diskPaired := by
    intro m hm hkey
    rw [hload, Option.some.injEq] at hkey
    exact absurd hkey.symm (hfresh.unused m hm)
  diskDrawn := by
    intro k hk
    rw [hload, Option.some.injEq] at hk
    subst hk
    refine ⟨hfresh.drawn, fun hmem => hfresh.late ?_⟩
    exact (take_subset_take_left _ hfloor) hmem
  floor_le := hfloor.trans hlocked
  exclusive := fun _ => hreaders
  whole := fun h => by rw [hwriter] at h; cases h

lemma Sound.readers_nil (hsound : Sound s) (hwriter : s.1.writer = some i) : s.1.readers = [] :=
  hsound.exclusive (by rw [hwriter]; exact Option.some_ne_none i)

/-- The secret of a failed or successful write. -/
def WroteSecret (i : Nat) (stored : Option Bytes) (secret hash : Bytes) :
    Except Bytes Bytes → World → Prop
  | .ok key, t => Placed i stored secret hash key t
  | .error _, t => Holder i stored secret hash t

lemma writeFreshSecret_holds (hs : Holder i stored secret hash s) :
    Minds lib kept i (WroteSecret i stored secret hash) writeFreshSecret s := by
  simp only [writeFreshSecret, Prog.lift_bind]
  refine Minds.act holder_private.leaves hs ?_
  rintro x s' key ⟨t, g⟩ hs' hsound hserve (rfl : g = s'.2)
  simp only [serve] at hserve
  split at hserve
  next hnew =>
    cases hserve
    obtain ⟨hlength, hnew⟩ := hnew
    have hlate : x.bytes ∉ (s'.1.drawn ++ [x.bytes]).take (s'.2.lockedAt i) := by
      rw [take_append_of_le_length hs'.locked_le]
      exact fun h => hnew (mem_of_mem_take h)
    have hdrew : Drew i stored secret hash x.bytes
        ({ s'.1 with drawn := s'.1.drawn ++ [x.bytes] }, s'.2) := by
      refine ⟨⟨hs'.writer, hs'.stored_eq, hs'.secret_eq, hs'.hash_eq, ?_, hs'.floor_le, ?_⟩,
        hlength, by simp, hlate, ?_⟩
      · exact hs'.drawn.imp_right fun h => mem_append_left _ h
      · simpa using Nat.le_succ_of_le hs'.locked_le
      · intro m hm hkey
        exact hnew (hkey ▸ hsound.keys m hm)
    refine ⟨others_of_writer hsound hs'.writer fun _ _ => ⟨rfl, rfl⟩, ?_, ?_⟩
    · refine { hsound with
        sized := fun k hk => ?_, keys := fun m hm => mem_append_left _ (hsound.keys m hm),
        diskDrawn := fun k hk => ?_, floor_le := ?_, whole := fun h => ?_ }
      · rcases mem_append.mp hk with hk | hk
        · exact hsound.sized k hk
        · rw [mem_singleton.mp hk]
          exact hlength
      · rw [take_append_of_le_length hsound.floor_le]
        exact (hsound.diskDrawn k hk).imp_left fun h => mem_append_left _ h
      · simpa using Nat.le_succ_of_le hsound.floor_le
      · exact nomatch hs'.writer.symm.trans h
    · have hprivate : Private i (Placed i stored secret hash x.bytes) := placed_private
      refine Holds.bind stable_leaves ((stageWrite_holds lib kept drew_private
        hprivate ?_ hdrew).mono fun result t ht => ?_)
      · intro s hs hsound
        have hload : loadSecret (some (writeHex x.bytes)) = some x.bytes :=
          loadSecret_written hlength
        have hplaced : Placed i stored secret hash x.bytes
            (moved i .secret (writeHex x.bytes) s) :=
          ⟨⟨{ hs.1 with }, { hs.2 with }⟩, hload⟩
        exact ⟨hplaced.1.2.sound hsound hs.1.writer hload hs.1.floor_le hs.1.locked_le rfl rfl
          (hsound.readers_nil hs.1.writer) hsound.paired, hplaced⟩
      · cases result with
        | ok _ => exact Minds.ret placed_private.leaves ht fun u hu => hu
        | error _ =>
          have hholder : Holder i stored secret hash t := ht.elim (fun h => h.1) fun h => h.1.1.1
          exact Minds.ret holder_private.leaves hholder fun u hu => hu
  · cases hserve

lemma stageHash_holds (hnew : storedHash (some newHash) = some newHash)
    (hs : Placed i stored secret hash key s) :
    Minds lib kept i (Written kept .hash (Placed i stored secret hash key)
      (Placed i (some newHash) secret hash key)) (stageWrite .hash newHash) s := by
  refine stageWrite_holds lib kept placed_private placed_private ?_ hs
  intro s ⟨⟨hholder, hfresh⟩, hload⟩ hsound
  have hplaced : Placed i (some newHash) secret hash key (moved i .hash newHash s) :=
    ⟨⟨{ hholder with stored_eq := hnew, floor_le := Nat.le_refl _ }, { hfresh with }⟩, hload⟩
  exact ⟨hplaced.1.2.sound hsound hholder.writer hload (Nat.le_refl _) hholder.locked_le rfl rfl
    (hsound.readers_nil hholder.writer) hsound.paired, hplaced⟩

variable {next : Unit → Prog AuthAccess α}

lemma unlockWrite_holds (hs : Holder i (some hash) secret hash s) (hsecret : secret ≠ [])
    (hnext : ∀ t, Minds lib kept i Q (next ()) t) :
    Minds lib kept i Q (.act .unlockWrite next) s := by
  refine Minds.act holder_private.leaves hs ?_
  rintro x s' b ⟨t, g⟩ hs' hsound hserve (rfl : g = s'.2)
  cases hserve
  refine ⟨others_of_writer hsound hs'.writer fun _ _ => ⟨rfl, rfl⟩, ?_, hnext _⟩
  refine { hsound with exclusive := fun h => absurd rfl h, whole := fun _ => ⟨?_, ?_⟩ }
  · exact hs'.stored_eq.trans (congrArg some hs'.hash_eq.symm)
  · have hdrawn := hs'.drawn.resolve_left hsecret
    rwa [← hs'.secret_eq] at hdrawn

lemma lockWrite_holds (hnext : ∀ secret hash t, secret ≠ [] → Holder i (some hash) secret hash t →
      Minds lib kept i Q (next ()) t) : Minds lib kept i Q (.act .lockWrite next) s := by
  refine Minds.act (A := fun _ => True) (fun _ _ => trivial) trivial ?_
  rintro x s' b ⟨t, g⟩ - hsound hserve hnote
  simp only [serve] at hserve
  split at hserve
  next hfree =>
    cases hserve
    rw [Bool.and_eq_true, Option.isNone_iff_eq_none, List.isEmpty_iff] at hfree
    obtain ⟨hwriter, hreaders⟩ := hfree
    obtain rfl : g = { s'.2 with
      lockedAt := Function.update s'.2.lockedAt i s'.1.drawn.length } := hnote
    obtain ⟨hstored, hdrawn⟩ := hsound.whole hwriter
    refine ⟨fun j hj => ⟨fun h => ?_, fun h => ?_, rfl, ?_⟩, ?_, ?_⟩
    · rw [hreaders] at h
      cases h
    · rw [hwriter] at h
      cases h
    · exact Function.update_of_ne hj _ _
    · exact { hsound with exclusive := fun _ => hreaders, whole := fun h => nomatch h }
    · refine hnext s'.1.secret s'.1.hash _ ?_
        ⟨rfl, hstored, rfl, rfl, .inr hdrawn, ?_, ?_⟩
      · intro hnil
        have hlength := hsound.sized _ hdrawn
        rw [hnil] at hlength
        exact nomatch hlength
      · simpa using hsound.floor_le
      · simp
  · cases hserve

lemma setSecret_holds (hs : Placed i stored secret hash key s)
    (hnext : ∀ t, Placed i stored key hash key t → Minds lib kept i Q (next ()) t) :
    Minds lib kept i Q (.act (.setSecret key) next) s := by
  refine Minds.act placed_private.leaves hs ?_
  rintro x s' b ⟨t, g⟩ ⟨⟨hholder, hfresh⟩, hload⟩ hsound hserve (rfl : g = s'.2)
  cases hserve
  refine ⟨others_of_writer hsound hholder.writer fun _ _ => ⟨rfl, rfl⟩, ?_, hnext _ ?_⟩
  · refine { hsound with
      paired := fun m hm hkey => absurd hkey (hfresh.unused m hm), whole := fun h => ?_ }
    exact nomatch hholder.writer.symm.trans h
  · exact ⟨⟨{ hholder with secret_eq := rfl, drawn := .inr hfresh.drawn }, { hfresh with }⟩, hload⟩

lemma storeHash_holds (hs : Placed i stored key hash key s)
    (hnext : ∀ t, Placed i stored key newHash key t → Minds lib kept i Q (next ()) t) :
    Minds lib kept i Q (.act (.storeHash newHash) next) s := by
  refine Minds.act placed_private.leaves hs ?_
  rintro x s' b ⟨t, g⟩ ⟨⟨hholder, hfresh⟩, hload⟩ hsound hserve (rfl : g = s'.2)
  cases hserve
  refine ⟨others_of_writer hsound hholder.writer fun _ _ => ⟨rfl, rfl⟩, ?_, hnext _ ?_⟩
  · refine { hsound with paired := fun m hm hkey => ?_, whole := fun h => ?_ }
    · exact absurd (hkey.trans hholder.secret_eq) (hfresh.unused m hm)
    · exact nomatch hholder.writer.symm.trans h
  · exact ⟨⟨{ hholder with hash_eq := rfl }, { hfresh with }⟩, hload⟩

lemma Fresh.ne_nil (h : Fresh i key s) : key ≠ [] := by
  rintro rfl
  exact nomatch h.length

end Writing

section Requests

variable (lib : AuthLibrary) {i : Nat} {α β : Type} {Q : α → World → Prop} {s : World}

/-- Nothing is known, and nothing has to be. -/
abbrev Behaves (i : Nat) {α : Type} : Prog AuthAccess α → World → Prop :=
  Minds lib true i (fun _ _ => True)

lemma ret_behaves (a : α) : Behaves lib i (.ret a) s :=
  fun _ _ => trivial

lemma idle_behaves {next : β → Prog AuthAccess α} (hidle : access.Idle)
    (hnext : ∀ x s b t, serve lib access i x s = some (b, t) → ∀ t, Behaves lib i (next b) t) :
    Behaves lib i (.act access next) s :=
  Minds.idle (A := fun _ => True) hidle (fun _ _ => trivial) trivial
    fun x s b t _ hserve _ _ _ _ => hnext x s.1 b t.1 hserve t

lemma rotateSecret_behaves : Behaves lib i rotateSecret s := by
  simp only [rotateSecret, Prog.lift_bind]
  refine lockWrite_holds lib true fun secret hash t hsecret ht => ?_
  refine Holds.bind stable_leaves ((writeFreshSecret_holds lib true ht).mono fun result t ht => ?_)
  cases result with
  | error error => exact unlockWrite_holds lib true ht hsecret fun _ => ret_behaves lib _
  | ok key =>
    refine setSecret_holds lib true ht fun t ht => ?_
    exact unlockWrite_holds lib true ht.1.1 ht.1.2.ne_nil fun _ => ret_behaves lib _

lemma replacePassword_behaves (hnew : storedHash (some newHash) = some newHash) :
    Behaves lib i (replacePassword newHash) s := by
  simp only [replacePassword, Prog.lift_bind]
  refine lockWrite_holds lib true fun secret hash t hsecret ht => ?_
  refine Holds.bind stable_leaves ((writeFreshSecret_holds lib true ht).mono fun result t ht => ?_)
  cases result with
  | error error => exact unlockWrite_holds lib true ht hsecret fun _ => ret_behaves lib _
  | ok key =>
    refine setSecret_holds lib true ht fun t ht => ?_
    refine Holds.bind stable_leaves ((stageHash_holds lib true hnew ht).mono fun result t ht => ?_)
    cases result with
    | error error =>
      -- The condition rules out a hash that is in place although the write has failed.
      have hplaced := ht.resolve_right fun h => h.2 rfl rfl
      exact unlockWrite_holds lib true hplaced.1.1 hplaced.1.2.ne_nil fun _ => ret_behaves lib _
    | ok _ =>
      refine storeHash_holds lib true ht fun t ht => ?_
      exact unlockWrite_holds lib true ht.1.1 ht.1.2.ne_nil fun _ => ret_behaves lib _

/-- The lock is held for reading. -/
def Reading (i : Nat) (s : World) : Prop := i ∈ s.1.readers

/-- What a login knows: the hash in memory, and what it has checked. -/
def ReadingWith (i : Nat) (hash : Bytes) (s : World) : Prop :=
  Reading i s ∧ s.1.hash = hash

def Checked (i : Nat) (hash : Bytes) (s : World) : Prop :=
  ReadingWith i hash s ∧ s.2.checked i = some hash

variable {hash key : Bytes}

lemma Reading.leaves (h : Reading i s) (hst : Leaves i s t) : Reading i t :=
  (hst.reading h).1

lemma ReadingWith.leaves (h : ReadingWith i hash s) (hst : Leaves i s t) :
    ReadingWith i hash t :=
  ⟨h.1.leaves hst, (hst.reading h.1).2.2.trans h.2⟩

lemma Checked.leaves (h : Checked i hash s) (hst : Leaves i s t) :
    Checked i hash t :=
  ⟨h.1.leaves hst, hst.checked.trans h.2⟩

lemma Reading.writer (hsound : Sound s) (h : Reading i s) : s.1.writer = none := by
  by_contra hwriter
  unfold Reading at h
  rw [hsound.exclusive hwriter] at h
  cases h

lemma lockRead_behaves {next : Unit → Prog AuthAccess α}
    (hnext : ∀ t, Reading i t → Behaves lib i (next ()) t) :
    Behaves lib i (.act .lockRead next) s := by
  refine Minds.act (A := fun _ => True) (fun _ _ => trivial) trivial ?_
  rintro x s' b ⟨t, g⟩ - hsound hserve (rfl : g = s'.2)
  simp only [serve] at hserve
  split at hserve
  next hfree =>
    cases hserve
    rw [Option.isNone_iff_eq_none] at hfree
    refine ⟨fun j hj => ⟨fun h => ?_, fun h => ?_, rfl, rfl⟩, ?_, hnext _ mem_cons_self⟩
    · exact ⟨mem_cons_of_mem _ h, rfl, rfl⟩
    · rw [hfree] at h
      cases h
    · exact { hsound with exclusive := fun h => absurd hfree h }
  · cases hserve

lemma unlockRead_behaves {next : Unit → Prog AuthAccess α} (hs : Reading i s)
    (hnext : ∀ t, Behaves lib i (next ()) t) : Behaves lib i (.act .unlockRead next) s := by
  refine Minds.act Reading.leaves hs ?_
  rintro x s' b ⟨t, g⟩ hs' hsound hserve (rfl : g = s'.2)
  cases hserve
  have hwriter := hs'.writer hsound
  refine ⟨fun j hj => ⟨fun h => ?_, fun h => ?_, rfl, rfl⟩, ?_, hnext _⟩
  · exact ⟨(mem_erase_of_ne hj).mpr h, rfl, rfl⟩
  · rw [hwriter] at h
    cases h
  · exact { hsound with exclusive := fun h => absurd hwriter h }

lemma mint_behaves {next : Bytes → Prog AuthAccess α} (hs : Checked i hash s ∧ s.1.secret = key)
    (hnext : ∀ token t, Reading i t → Behaves lib i (next token) t) :
    Behaves lib i (.act (.mint key) next) s := by
  refine Minds.act (A := fun s => Checked i hash s ∧ s.1.secret = key)
    (fun h hst => ⟨h.1.leaves hst, (hst.reading h.1.1.1).2.1.trans h.2⟩) hs ?_
  rintro x s' token ⟨t, g⟩ ⟨⟨⟨hreading, hhash⟩, hchecked⟩, rfl⟩ hsound hserve hnote
  obtain rfl : g = { s'.2 with mints := ⟨token, s'.1.secret, s'.2.checked i⟩ :: s'.2.mints } :=
    hnote
  cases hserve
  have hwriter := Reading.writer hsound hreading
  obtain ⟨hstored, hdrawn⟩ := hsound.whole hwriter
  refine ⟨fun j hj => ⟨fun h => ⟨h, rfl, rfl⟩, fun h => ?_, rfl, rfl⟩, ?_, hnext _ _ hreading⟩
  · rw [hwriter] at h
    cases h
  · refine { hsound with keys := ?_, paired := ?_, diskPaired := ?_ }
    · exact forall_mem_cons.mpr ⟨hdrawn, hsound.keys⟩
    · refine forall_mem_cons.mpr ⟨fun _ => ?_, hsound.paired⟩
      exact hchecked.trans (congrArg some hhash.symm)
    · refine forall_mem_cons.mpr ⟨fun _ => ?_, hsound.diskPaired⟩
      exact hchecked.trans (hstored.trans (congrArg some hhash)).symm

lemma verifyPassword_behaves
    {next : Option (Except Bytes Bool) → Prog AuthAccess α} {A : World → Prop}
    (hA : ∀ {s t}, A s → Leaves i s t → A t) (hcore : ∀ {s t}, A s → SameCore s t → A t) (hs : A s)
    (hnext : ∀ b t, A t → (b = some (.ok true) → t.2.checked i = some hash) →
      Behaves lib i (next b) t) : Behaves lib i (.act (.verifyPassword hash candidate) next) s := by
  refine Minds.act hA hs ?_
  rintro x s' b ⟨t, g⟩ hs' hsound hserve hnote
  obtain rfl : t = s'.1 := by
    simp only [serve] at hserve
    split at hserve
    · cases hserve
      rfl
    · split at hserve
      all_goals
        cases hserve
        rfl
  have hledger : g.mints = s'.2.mints ∧ g.floor = s'.2.floor ∧ g.lockedAt = s'.2.lockedAt ∧
      (∀ j, j ≠ i → g.checked j = s'.2.checked j) ∧
      (b = some (.ok true) → g.checked i = some hash) := by
    simp only [note] at hnote
    split at hnote
    · subst hnote
      exact ⟨rfl, rfl, rfl, fun j hj => Function.update_of_ne hj _ _,
        fun _ => Function.update_self ..⟩
    next hne =>
      subst hnote
      exact ⟨rfl, rfl, rfl, fun _ _ => rfl, fun h => absurd h hne⟩
  obtain ⟨hmints, hfloor, hlocked, hchecked, hright⟩ := hledger
  have hsame : SameCore s' (s'.1, g) := ⟨rfl, rfl, rfl, rfl, rfl, rfl, hmints, hfloor⟩
  exact ⟨fun j hj => hsame.leaves rfl (hchecked j hj) (congrFun hlocked j), hsound.same hsame,
    hnext b _ (hcore hs' hsame) hright⟩

lemma ReadingWith.same (h : ReadingWith i hash s) (hst : SameCore s t) :
    ReadingWith i hash t := by
  refine ⟨?_, hst.hash.trans h.2⟩
  unfold Reading
  rw [hst.readers]
  exact h.1

lemma verifyAndMint_behaves (candidate : Bytes) : Behaves lib i (verifyAndMint candidate) s := by
  refine lockRead_behaves lib fun t ht => ?_
  refine Minds.idle trivial Reading.leaves ht fun x s' hash t hs' hserve _ hcore _ ht => ?_
  have hread : ReadingWith i hash t := by
    obtain ⟨hhash, -⟩ := Prod.mk.inj (Option.some.inj hserve)
    exact ⟨ht, hcore.hash.trans hhash⟩
  refine verifyPassword_behaves lib ReadingWith.leaves ReadingWith.same hread
    fun verified t ht hright => ?_
  by_cases hok : verified = some (.ok true)
  · subst hok
    have hchecked : Checked i hash t := ⟨ht, hright rfl⟩
    refine Minds.idle trivial Checked.leaves hchecked fun _ _ _ t _ _ _ _ _ ht => ?_
    refine Minds.idle trivial Checked.leaves ht fun _ s' key t _ hserve _ hcore _ ht => ?_
    have hkey : t.1.secret = key := by
      obtain ⟨hsecret, -⟩ := Prod.mk.inj (Option.some.inj hserve)
      exact hcore.secret.trans hsecret
    refine mint_behaves lib ⟨ht, hkey⟩ fun token t ht => ?_
    exact unlockRead_behaves lib ht fun _ => ret_behaves lib _
  · refine Minds.idle trivial Reading.leaves ht.1 fun _ _ _ t _ _ _ _ _ ht => ?_
    match verified, hok with
    | none, _ => exact unlockRead_behaves lib ht fun _ => ret_behaves lib _
    | some (.error error), _ => exact unlockRead_behaves lib ht fun _ => ret_behaves lib _
    | some (.ok false), _ => exact unlockRead_behaves lib ht fun _ => ret_behaves lib _

lemma bind_behaves
    (hp : Behaves lib i p s) (hk : ∀ b t, Behaves lib i (k b) t) : Behaves lib i (p >>= k) s :=
  Holds.bind stable_leaves (hp.mono fun b t _ => hk b t)

lemma spendArgon2_behaves : Behaves lib i spendArgon2 s := by
  refine idle_behaves lib trivial fun _ _ rate _ _ _ => ?_
  cases rate with
  | limited retryAfter => exact ret_behaves lib _
  | allowed =>
    refine idle_behaves lib trivial fun _ _ permit _ _ _ => ?_
    cases permit
    all_goals exact ret_behaves lib _

lemma hashPassword_result {s t : AuthState}
    (hserve : serve lib (.hashPassword password) i x s = some (some (.ok hash), t)) :
    lib.hashPassword password x.bytes = .ok hash := by
  simp only [serve] at hserve
  split at hserve
  · cases hserve
  · split at hserve
    · cases hserve
    · simp only [Option.some.injEq, Prod.mk.injEq] at hserve
      exact hserve.1

lemma changePassword_behaves (request : PasswordChangeRequest) :
    Behaves lib i (changePassword request) s := by
  simp only [changePassword, Prog.lift_bind]
  refine idle_behaves lib trivial fun x _ hashed _ hserve _ => ?_
  refine idle_behaves lib trivial fun _ _ _ _ _ _ => ?_
  match hashed with
  | none => exact ret_behaves lib _
  | some (.error error) => exact ret_behaves lib _
  | some (.ok newHash) =>
    have hnew := storedHash_written (hashPassword_result lib hserve)
    refine bind_behaves lib (replacePassword_behaves lib hnew) fun result t => ?_
    cases result
    all_goals exact ret_behaves lib _

lemma prog_behaves (task : AuthTask) : Behaves lib i (task.prog lib) s := by
  cases task with
  | login tls password =>
    simp only [AuthTask.prog, authLogin]
    split
    · refine bind_behaves lib (spendArgon2_behaves lib) fun spent t => ?_
      cases spent with
      | error reply => exact ret_behaves lib _
      | ok _ =>
        refine bind_behaves lib (verifyAndMint_behaves lib password) fun minted t => ?_
        cases minted
        all_goals exact ret_behaves lib _
    · exact ret_behaves lib _
  | logoutAll =>
    refine bind_behaves lib (rotateSecret_behaves lib) fun result t => ?_
    cases result
    all_goals exact ret_behaves lib _
  | passwordChange request =>
    simp only [AuthTask.prog, authPassword]
    split
    · exact ret_behaves lib _
    · refine bind_behaves lib (spendArgon2_behaves lib) fun spent t => ?_
      cases spent with
      | error reply => exact ret_behaves lib _
      | ok _ =>
        refine idle_behaves lib trivial fun _ _ hash _ _ t => ?_
        refine verifyPassword_behaves lib (A := fun _ => True) (fun _ _ => trivial)
          (fun _ _ => trivial) trivial fun verified t _ _ => ?_
        match verified with
        | none => exact idle_behaves lib trivial fun _ _ _ _ _ _ => ret_behaves lib _
        | some (.error error) =>
          exact idle_behaves lib trivial fun _ _ _ _ _ _ => ret_behaves lib _
        | some (.ok false) =>
          exact idle_behaves lib trivial fun _ _ _ _ _ _ => ret_behaves lib _
        | some (.ok true) => exact changePassword_behaves lib request
  | session token =>
    refine lockRead_behaves lib fun t ht => ?_
    refine Minds.idle trivial Reading.leaves ht fun _ _ _ t _ _ _ _ _ ht => ?_
    refine Minds.idle trivial Reading.leaves ht fun _ _ _ t _ _ _ _ _ ht => ?_
    exact unlockRead_behaves lib ht fun _ => ret_behaves lib _

end Requests

section Starting

variable (lib : AuthLibrary) {i : Nat} {s : World}

lemma readFile_result {s t : AuthState}
    (hserve : serve lib (.readFile file) i x s = some (b, t)) : b = none ∨ b = s.disk file := by
  obtain ⟨hb, -⟩ := Prod.mk.inj (Option.some.inj hserve)
  split at hb
  · exact .inl hb.symm
  · exact .inr hb.symm

/-- What a process at its start knows of the disk. -/
def Booting (i : Nat) (stored loaded : Option Bytes) (s : World) : Prop :=
  Holder i stored [] [] s ∧ loadSecret (s.1.disk .secret) = loaded

variable {stored loaded : Option Bytes}

lemma booting_private : Private i (Booting i stored loaded) where
  writer := fun h => h.1.writer
  closed := by
    intro s t h hst hlocked
    refine ⟨h.1.closed hst hlocked, ?_⟩
    rw [hst.disk]
    exact h.2

/-- A process that was built serves with what is on the disk. -/
def OnDisk (i : Nat) : Except Bytes Built → World → Prop
  | .ok built, t => Booting i (some built.hash) (some built.secret) t
  | .error _, _ => True

lemma failed_onDisk (error : Bytes) : Minds lib false i (OnDisk i) (.ret (.error error)) s :=
  fun _ _ => trivial

lemma built_onDisk (hs : Booting i (some built.hash) (some built.secret) s) :
    Minds lib false i (OnDisk i) (.ret (.ok built)) s :=
  Minds.ret booting_private.leaves hs fun _ h => h

lemma resetPassword_onDisk (hs : Placed i stored [] [] secret s) :
    Minds lib false i (OnDisk i) (resetPassword secret) s := by
  simp only [resetPassword, Prog.lift_bind]
  refine Minds.idle trivial placed_private.leaves hs fun _ _ bytes t _ _ _ _ _ ht => ?_
  refine Minds.idle trivial placed_private.leaves ht fun x _ hashed t _ hserve _ _ _ ht => ?_
  match hashed with
  | none => exact failed_onDisk lib _
  | some (.error error) => exact failed_onDisk lib _
  | some (.ok hash) =>
    have hnew : lib.hashPassword (generatePassword bytes) x.bytes = .ok hash :=
      hashPassword_result lib hserve
    refine Holds.bind stable_leaves
      ((stageHash_holds lib false (storedHash_written hnew) ht).mono fun result t ht => ?_)
    cases result with
    | error error => exact failed_onDisk lib _
    | ok _ => exact built_onDisk lib ⟨ht.1.1, ht.2⟩

lemma freshSecret_onDisk {next : Bytes → Prog AuthAccess (Except Bytes Built)}
    (hs : Booting i stored loaded s) (hnext : ∀ secret t, Placed i stored [] [] secret t →
      Minds lib false i (OnDisk i) (next secret) t) :
    Minds lib false i (OnDisk i) (do
      match ← writeFreshSecret with
      | .error error => pure (.error error)
      | .ok secret => next secret) s := by
  refine Holds.bind stable_leaves ((writeFreshSecret_holds lib false hs.1).mono fun result t ht => ?_)
  cases result with
  | error error => exact failed_onDisk lib _
  | ok secret => exact hnext secret t ht

/-- **A new process** serves with the hash and the secret that are on the disk. -/
theorem build_onDisk (hs : Booting i stored loaded s) : Minds lib false i (OnDisk i) build s := by
  simp only [build, Prog.lift_bind]
  refine removeTmp_holds lib false booting_private .hash hs fun t ht => ?_
  refine Minds.idle trivial booting_private.leaves ht
    fun x s' hashText t hs' hserve _ _ _ ht => ?_
  refine removeTmp_holds lib false booting_private .secret ht fun t ht => ?_
  refine Minds.idle trivial booting_private.leaves ht
    fun x' s'' secretText t hs'' hserve' _ _ _ ht => ?_
  have hhash : ∀ hash, storedHash hashText = some hash → stored = some hash := by
    intro hash hread
    obtain rfl | rfl := readFile_result lib hserve
    · cases hread
    · rw [← hs'.1.stored_eq, hread]
  have hsecret : ∀ secret, loadSecret secretText = some secret → loaded = some secret := by
    intro secret hread
    obtain rfl | rfl := readFile_result lib hserve'
    · cases hread
    · rw [← hs''.2, hread]
  split
  next hash secret hstored hloaded =>
    rw [hhash hash hstored, hsecret secret hloaded] at ht
    exact built_onDisk lib ht
  next hash hstored hloaded =>
    refine freshSecret_onDisk lib ht fun secret t ht => ?_
    rw [hhash hash hstored] at ht
    exact built_onDisk lib ⟨ht.1.1, ht.2⟩
  next => exact freshSecret_onDisk lib ht fun secret t ht => resetPassword_onDisk lib ht

end Starting

section Lives

variable {lib : AuthLibrary}

lemma others_leaves (i j : Nat) (hij : i ≠ j) (s t : World) (_ : Sound s) (h : Others i s t) :
    Leaves j s t :=
  h j (Ne.symm hij)

lemma Sound.restarted (h : Sound (s, g)) :
    Sound ((leftBy s g).start, (leftBy s g).ledger) where
  sized := h.sized
  keys := h.keys
  paired := by
    intro m hm hkey
    have hlength := h.sized _ (h.keys m hm)
    rw [hkey] at hlength
    exact nomatch hlength
  diskPaired := h.diskPaired
  diskDrawn := h.diskDrawn
  floor_le := h.floor_le
  exclusive := fun _ => rfl
  whole := fun h => nomatch h

lemma sound_nothing : Sound (Remains.nothing.start, Remains.nothing.ledger) where
  sized := fun _ h => nomatch h
  keys := fun _ h => nomatch h
  paired := fun _ h => nomatch h
  diskPaired := fun _ h => nomatch h
  diskDrawn := fun _ h => nomatch h
  floor_le := Nat.le_refl _
  exclusive := fun _ => rfl
  whole := fun h => nomatch h

lemma Sound.build {r : Remains} (h : Sound (r.start, r.ledger))
    (hrun : Pool.Run (machine lib) ⟨r.start, [build]⟩ labels c) :
    Sound (c.state, recorded note r.ledger labels) ∧ ∀ built, c.threads = [.ret (.ok built)] →
        OnDisk 0 (.ok built) (c.state, recorded note r.ledger labels) := by
  have hwatched : Pool.Run (watched lib false) _ _ _ :=
    (hrun.ghost r.ledger).restrict fun l _ h => nomatch h
  have hboot : Booting 0 (storedHash (r.disk .hash)) (loadSecret (r.disk .secret))
      (r.start, r.ledger) :=
    ⟨⟨rfl, rfl, rfl, rfl, .inl rfl, h.floor_le, Nat.le_refl _⟩, rfl⟩
  obtain ⟨hsound, -, hthreads⟩ := hwatched.holds (Q := fun i => OnDisk i) stable_leaves
    others_leaves h fun i p hp => by
      rcases i with _ | i
      · cases hp
        exact build_onDisk lib hboot
      · cases hp
  refine ⟨hsound, fun built hbuilt => ?_⟩
  have hdone := hthreads 0 (.ret (.ok built)) (by simp [hbuilt])
  exact hdone _ (stable_leaves.refl 0 _)

lemma Sound.serving (h : Sound (s, g))
    (hbuilt : OnDisk 0 (.ok built) (s, g)) : Sound (s.serving built, g) := by
  obtain ⟨hholder, hload⟩ := hbuilt
  refine { h with paired := fun m hm hkey => ?_, exclusive := fun h => absurd rfl h,
                  whole := fun _ => ⟨hholder.stored_eq, (h.diskDrawn _ hload).1⟩ }
  have hpaired := h.diskPaired m hm (hload.trans (congrArg some hkey.symm))
  exact hpaired.trans hholder.stored_eq

lemma HashKept.noted (h : HashKept l) (g : AuthLedger) :
    HashKept (l.noted note g) := by
  obtain ⟨i, ⟨δ, access⟩, b, s, t⟩ := l
  cases access with
  | restrict file =>
    cases file
    · exact h
    · trivial
  | _ => trivial

lemma Sound.requests (h : Sound (s, g)) {tasks : List AuthTask}
    (hrun : Pool.Run (machine lib) ⟨s, tasks.map (AuthTask.prog lib)⟩ labels c)
    (hkept : ∀ l ∈ labels, HashKept l) : Sound (c.state, recorded note g labels) := by
  have hwatched : Pool.Run (watched lib true) _ _ _ := (hrun.ghost g).restrict fun m hm _ => by
    obtain ⟨first, l, rest, rfl, rfl⟩ := mem_annotate.mp hm
    exact (hkept l (by simp)).noted _
  refine (hwatched.holds (Q := fun _ _ _ => True) stable_leaves others_leaves h ?_).1
  intro i p hp
  simp only [getElem?_map, Option.map_eq_some_iff] at hp
  obtain ⟨task, -, rfl⟩ := hp
  exact prog_behaves lib task

lemma History.sound (h : History lib HashKept r) : Sound (r.start, r.ledger) := by
  induction h with
  | nothing => exact sound_nothing
  | building _ hrun ih => exact (ih.build hrun).1.restarted
  | serving _ hbuild hrun hkept ih =>
    obtain ⟨hsound, hbuilt⟩ := ih.build hbuild
    exact ((hsound.serving (hbuilt _ rfl)).requests hrun hkept).restarted

/-- **Sessions follow the password.** Let processes have started, served and stopped
in any way, and let one more have started and now be anywhere in a run of logins,
password changes and the rest, with nobody making tokens up. As long as setting the
permissions of a hash in place does not fail, every token that verifies was minted
with the secret in force after a check against the hash in force, and the process
did not start with a secret from before the change that wrote its hash. -/
theorem sessions_follow_password {r : Remains} {labels labels' : List (Label AuthAccess AuthState)}
    {s : AuthState} {built : Built} {tasks : List AuthTask}
    {c : Pool AuthAccess AuthState AuthReply} (hpast : History lib HashKept r)
    (hbuild : Pool.Run (machine lib) ⟨r.start, [build]⟩ labels ⟨s, [.ret (.ok built)]⟩)
    (hrun : Pool.Run (machine lib) ⟨s.serving built, tasks.map (AuthTask.prog lib)⟩ labels' c)
    (hkept : ∀ l ∈ labels', HashKept l) :
    (∀ token now, Unforged lib (recorded note (recorded note r.ledger labels) labels').mints token →
      verify lib c.state.secret token now = true →
      ∃ m ∈ (recorded note (recorded note r.ledger labels) labels').mints,
        m.token = token ∧ m.key = c.state.secret ∧ m.checked = some c.state.hash) ∧
      built.secret ∉ s.drawn.take (recorded note r.ledger labels).floor := by
  obtain ⟨hsound, hbuilt⟩ := hpast.sound.build hbuild
  have hnow := (hsound.serving (hbuilt built rfl)).requests hrun hkept
  refine ⟨fun token now hunforged hverify => ?_, ?_⟩
  · obtain ⟨m, hm, htoken, hkey⟩ := hunforged _ _ hverify
    exact ⟨m, hm, htoken, hkey, hnow.paired m hm hkey⟩
  · exact (hsound.diskDrawn _ (hbuilt built rfl).2).2

end Lives

def plainLibrary : AuthLibrary where
  hashPassword password _ := .ok (writeHex (0 :: password))
  verifyPassword hash candidate := .ok (decide (hash = writeHex (0 :: candidate)))
  hmac key _ := key
  hash_trimmed := by
    intro password salt hash h
    cases h
    refine ⟨trim_writeHex _, fun hnil => ?_⟩
    have hlength := length_writeHex (0 :: password)
    rw [hnil] at hlength
    exact nomatch hlength

def Chance.drawing (bytes : Bytes) : Chance := ⟨none, none, bytes, 0, false, .allowed⟩

def Chance.fine : Chance := .drawing (List.replicate 16 0)

def Chance.refusing : Chance := ⟨some (lit "refused"), none, [], 0, false, .allowed⟩

def booted (r : Remains) (schedule : List (Nat × Chance)) :
    Option (List (Label AuthAccess AuthState) × AuthState × Built) :=
  match Pool.exec (machine plainLibrary) ⟨r.start, [build]⟩ schedule with
  | some (labels, ⟨s, [.ret (.ok built)]⟩) => some (labels, s, built)
  | _ => none

lemma booted_run (h : booted r schedule = some b) :
    Pool.Run (machine plainLibrary) ⟨r.start, [build]⟩ b.1 ⟨b.2.1, [.ret (.ok b.2.2)]⟩ := by
  unfold booted at h
  split at h
  next hexec =>
    cases h
    exact Pool.run_of_exec hexec
  · cases h

def firstPassword : Bytes := generatePassword (List.replicate 16 0)

def firstBoot : List (Nat × Chance) :=
  List.replicate 4 (0, .fine) ++ [(0, .drawing (List.replicate 32 1))] ++ List.replicate 12 (0, .fine)

def served (s : AuthState) (tasks : List AuthTask) (schedule : List (Nat × Chance)) :
    Option (List (Label AuthAccess AuthState) × Pool AuthAccess AuthState AuthReply) :=
  Pool.exec (machine plainLibrary) ⟨s, tasks.map (AuthTask.prog plainLibrary)⟩ schedule

lemma verify_plain (hraw : decodeHex (payloadBytes + macBytes) token = some raw)
    (h : verify plainLibrary key token now = true) : key = raw.drop payloadBytes := by
  rw [verify, hraw] at h
  dsimp only at h
  split at h
  · cases h
  · split at h
    · cases h
    next heq => exact not_not.mp heq

lemma unforged_plain (hraw : decodeHex (payloadBytes + macBytes) token = some raw)
    (h : ∃ m ∈ mints, m.token = token ∧ m.key = raw.drop payloadBytes) :
    Unforged plainLibrary mints token := by
  intro key now hverify
  rw [verify_plain hraw hverify]
  exact h

def loginSchedule (i : Nat) : List (Nat × Chance) := List.replicate 9 (i, .fine)

theorem sessions_follow_password_login :
    ∃ labels s built labels' c token,
      Pool.Run (machine plainLibrary) ⟨Remains.nothing.start, [build]⟩ labels
        ⟨s, [.ret (.ok built)]⟩ ∧ Pool.Run (machine plainLibrary) ⟨s.serving built,
        [AuthTask.login true firstPassword].map (AuthTask.prog plainLibrary)⟩ labels' c ∧
      verify plainLibrary c.state.secret token 0 = true ∧
      ∃ m ∈ (recorded note (recorded note Remains.nothing.ledger labels) labels').mints,
        m.token = token ∧ m.key = c.state.secret ∧ m.checked = some c.state.hash := by
  obtain ⟨b, hboot, hb⟩ := (Option.any_eq_true _ _).mp
    (show (booted .nothing firstBoot).any (fun (labels, s, built) =>
      (served (s.serving built) [.login true firstPassword] (loginSchedule 0)).any
        fun (labels', c) =>
          decide (∀ l ∈ labels', HashKept l) &&
          (recorded note (recorded note Remains.nothing.ledger labels) labels').mints.any fun m =>
            verify plainLibrary c.state.secret m.token 0 &&
              (decodeHex (payloadBytes + macBytes) m.token).any fun raw =>
                m.key = raw.drop payloadBytes) = true by decide +kernel)
  obtain ⟨⟨labels', c⟩, hserved, hc⟩ := (Option.any_eq_true _ _).mp hb
  rw [Bool.and_eq_true, decide_eq_true_eq, any_eq_true] at hc
  obtain ⟨hkept, m, hm, hmint⟩ := hc
  rw [Bool.and_eq_true, Option.any_eq_true] at hmint
  obtain ⟨hverify, raw, hraw, hkey⟩ := hmint
  have hunforged := unforged_plain hraw ⟨m, hm, rfl, of_decide_eq_true hkey⟩
  have hrun := booted_run hboot
  have hrun' := Pool.run_of_exec hserved
  exact ⟨b.1, b.2.1, b.2.2, labels', c, m.token, hrun, hrun', hverify,
    (sessions_follow_password .nothing hrun hrun' hkept).1 m.token 0 hunforged hverify⟩

/-- A change whose last step, the permissions of the hash, fails; then a login with
the password from before. -/
def failedChange : List (Nat × Chance) :=
  List.replicate 7 (0, .fine) ++ [(0, .drawing (List.replicate 32 2))] ++
    List.replicate 10 (0, .fine) ++ [(0, .refusing), (0, .fine)] ++ loginSchedule 1

def changeTasks : List AuthTask :=
  [.passwordChange ⟨firstPassword, lit "twelve chars"⟩, .login true firstPassword]

def firstLife (labels labels' : List (Label AuthAccess AuthState))
    (c : Pool AuthAccess AuthState AuthReply) : Remains :=
  leftBy c.state (recorded note (recorded note Remains.nothing.ledger labels) labels')

/-- **A session outlives its password.** After the change has failed, the process
is stopped; the next one has the new hash from the disk, and the token of the old
password verifies. -/
theorem session_outlives_password :
    ∃ r labels s built labels' c token, History plainLibrary (fun _ => True) r ∧
      Pool.Run (machine plainLibrary) ⟨r.start, [build]⟩ labels ⟨s, [.ret (.ok built)]⟩ ∧
      Pool.Run (machine plainLibrary) ⟨s.serving built,
        ([] : List AuthTask).map (AuthTask.prog plainLibrary)⟩ labels' c ∧
      Unforged plainLibrary (recorded note (recorded note r.ledger labels) labels').mints token ∧
      verify plainLibrary c.state.secret token 0 = true ∧
      ∀ m ∈ (recorded note (recorded note r.ledger labels) labels').mints, m.token = token →
        m.checked ≠ some c.state.hash := by
  obtain ⟨b, hboot, hb⟩ := (Option.any_eq_true _ _).mp
    (show (booted .nothing firstBoot).any (fun (labels, s, built) =>
      (served (s.serving built) changeTasks failedChange).any fun (labels', c) =>
        (booted (firstLife labels labels' c) (List.replicate 4 (0, .fine))).any
          fun (labels'', s', built') =>
            (recorded note (firstLife labels labels' c).ledger labels'').mints.any fun m =>
              (verify plainLibrary built'.secret m.token 0 &&
                decide (∀ m' ∈ (recorded note (firstLife labels labels' c).ledger labels'').mints,
                  m'.token = m.token → m'.checked ≠ some built'.hash)) &&
                (decodeHex (payloadBytes + macBytes) m.token).any fun raw =>
                  m.key = raw.drop payloadBytes) = true by decide +kernel)
  obtain ⟨⟨labels', c⟩, hserved, hc⟩ := (Option.any_eq_true _ _).mp hb
  obtain ⟨b', hboot', hb'⟩ := (Option.any_eq_true _ _).mp hc
  obtain ⟨m, hm, hmint⟩ := any_eq_true.mp hb'
  rw [Bool.and_eq_true, Bool.and_eq_true, Option.any_eq_true, decide_eq_true_eq] at hmint
  obtain ⟨⟨hverify, hother⟩, raw, hraw, hkey⟩ := hmint
  have hpast : History plainLibrary (fun _ => True) (firstLife b.1 labels' c) :=
    .serving .nothing (booted_run hboot) (Pool.run_of_exec hserved) fun _ _ => trivial
  exact ⟨_, b'.1, b'.2.1, b'.2.2, [], _, m.token, hpast, booted_run hboot', .nil _,
    unforged_plain hraw ⟨m, hm, rfl, of_decide_eq_true hkey⟩, hverify, hother⟩

end FastAdHunter.Api.Auth
