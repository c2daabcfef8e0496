import FastAdHunter.Api.Sessions

/-!
# Changes of the password

A request to change the password checks the current one, hashes the new one and
stores it, with nothing held in between.
-/

namespace FastAdHunter.Api.Auth

open Lib List

section Steps

def LoadsHash : Label AuthAccess AuthState → Prop
  | ⟨_, ⟨_, .loadHash⟩, _, _, _⟩ => True
  | _ => False

def AuthAccess.stores : {β : Type} → AuthAccess β → Option Bytes
  | _, .storeHash hash => some hash
  | _, _ => none

/-- The hash a step puts in force. -/
def stored (l : Label AuthAccess AuthState) : Option Bytes := l.access.2.stores

/-- No password is stored between the load of the hash by a thread and a store of
its own. -/
def Undisturbed (labels : List (Label AuthAccess AuthState)) : Prop :=
  ∀ first m mid l rest, labels = first ++ m :: (mid ++ l :: rest) → m.thread = l.thread →
    LoadsHash m → (stored l).isSome → ∀ l' ∈ mid, stored l' = none

variable {lib : AuthLibrary} {c c' : Pool AuthAccess AuthState AuthReply}
variable {labels : List (Label AuthAccess AuthState)}

lemma hash_serve (h : serve lib access i x s = some (b, t)) :
    t.hash = access.stores.getD s.hash := by
  all_goals
    simp only [serve, attempt] at h
    try repeat' split at h
    all_goals cases h
    all_goals rfl

lemma hash_stored (hrun : Pool.Run (machine lib) c labels c') :
    ∀ l ∈ labels, l.after.hash = (stored l).getD l.before.hash := by
  intro l hl
  obtain ⟨x, hserve⟩ := hrun.performs l hl
  exact hash_serve hserve

lemma hash_between (hrun : Pool.Run (machine lib) c labels c') {m l : Label AuthAccess AuthState}
    (hlabels : labels = first ++ m :: (mid ++ l :: rest)) (hmid : ∀ l' ∈ mid, stored l' = none) :
    l.before.hash = m.after.hash := by
  have hkept := hash_stored hrun
  obtain ⟨-, c₁, -, -, hafter, hrest⟩ := hrun.split hlabels
  obtain ⟨c₂, -, hrun', hbefore, -, -⟩ := hrest.split rfl
  rw [← hafter, ← hbefore]
  refine hrun'.unchanged (f := AuthState.hash) fun l' hl' => ?_
  rw [hkept l' (by simp [hlabels, hl']), hmid l' hl']
  rfl

lemma load_stores_nothing (h : LoadsHash l) : stored l = none := by
  obtain ⟨i, ⟨δ, access⟩, b, s, t⟩ := l
  cases access with
  | loadHash => rfl
  | _ => exact h.elim

end Steps

section Requests

variable (lib : AuthLibrary) {i : Nat} {α : Type}

/-- A password was found right against a hash that was loaded. -/
def Found (current : Bytes) (past : List (Label AuthAccess AuthState)) : Prop :=
  ∃ m ∈ past, LoadsHash m ∧ lib.verifyPassword m.before.hash current = .ok true

/-- When a thread stores a hash, it has found the current password of the request
right. -/
def Authorised (current : Bytes) (past : List (Label AuthAccess AuthState))
    (l : Label AuthAccess AuthState) : Prop :=
  (stored l).isSome → Found lib current past

abbrev Stores (i : Nat) (current : Bytes) : List (Label AuthAccess AuthState) →
    Prog AuthAccess α → Prop :=
  Along (machine lib) i (Authorised lib current) fun _ _ => True

variable {lib} {current : Bytes} {past : List (Label AuthAccess AuthState)}

lemma stores_nothing
    (hp : p.All fun access => access.stores = none) : Stores lib i current past p := by
  refine Along.of_all (A := fun _ => True) ?_ (fun _ _ _ => trivial) hp trivial
  intro δ access hnone past x s b t _ hstore
  rw [stored, hnone] at hstore
  cases hstore

lemma stageWrite_all (file : AuthFile) (contents : Bytes) :
    (stageWrite file contents).All fun access => access.stores = none := by
  refine ⟨rfl, fun created => ?_⟩
  cases created with
  | error error => trivial
  | ok _ =>
    refine ⟨rfl, fun written => ?_⟩
    cases written with
    | error error => exact ⟨rfl, fun _ => trivial⟩
    | ok _ =>
      refine ⟨rfl, fun restricted => ?_⟩
      cases restricted with
      | error error => exact ⟨rfl, fun _ => trivial⟩
      | ok _ =>
        refine ⟨rfl, fun renamed => ?_⟩
        cases renamed with
        | error | ok _ => exact ⟨rfl, fun _ => trivial⟩

lemma rotateSecret_all : rotateSecret.All fun access => access.stores = none := by
  refine ⟨rfl, fun _ => Prog.All.bind (p := .act _ _) ?_ fun written => ?_⟩
  · refine ⟨rfl, fun secret => (stageWrite_all _ _).bind fun result => ?_⟩
    cases result
    all_goals trivial
  · cases written with
    | error error => exact ⟨rfl, fun _ => trivial⟩
    | ok secret => exact ⟨rfl, fun _ => ⟨rfl, fun _ => trivial⟩⟩

lemma spendArgon2_all : spendArgon2.All fun access => access.stores = none := by
  refine ⟨rfl, fun rate => ?_⟩
  cases rate with
  | allowed =>
    refine ⟨rfl, fun permit => ?_⟩
    cases permit
    all_goals trivial
  | limited retryAfter => trivial

lemma verifyAndMint_all (candidate : Bytes) :
    (verifyAndMint candidate).All fun access => access.stores = none := by
  refine ⟨rfl, fun _ => ⟨rfl, fun hash => ⟨rfl, fun verified => ⟨rfl, fun _ => ?_⟩⟩⟩⟩
  match verified with
  | none => exact ⟨rfl, fun _ => trivial⟩
  | some (.error error) => exact ⟨rfl, fun _ => trivial⟩
  | some (.ok false) => exact ⟨rfl, fun _ => trivial⟩
  | some (.ok true) => exact ⟨rfl, fun _ => ⟨rfl, fun _ => ⟨rfl, fun _ => trivial⟩⟩⟩

lemma verifyPassword_result {hash candidate : Bytes}
    (hserve : serve lib (.verifyPassword hash candidate) i x s = some (some (.ok true), t)) :
    lib.verifyPassword hash candidate = .ok true := by
  simp only [serve] at hserve
  split at hserve
  · cases hserve
  · split at hserve
    · cases hserve
    · simp only [Option.some.injEq, Prod.mk.injEq] at hserve
      exact hserve.1

lemma changePassword_stores (request : PasswordChangeRequest) (hpast : Found lib current past) :
    Along (machine lib) i (Authorised lib current) (fun past _ => Found lib current past) past
      (changePassword request) := by
  have hauthorised : ∀ past l, Found lib current past → Authorised lib current past l :=
    fun _ _ h _ => h
  refine Along.of_known hauthorised ?_ hpast
  rintro past l ⟨m, hm, hload⟩
  exact ⟨m, mem_append_left _ hm, hload⟩

lemma authPassword_stores (request : PasswordChangeRequest) :
    Stores lib i request.currentPassword past (authPassword request) := by
  unfold authPassword
  split
  · trivial
  · refine Along.bind ((stores_nothing spendArgon2_all).mono fun past spent _ => ?_)
    cases spent with
    | error reply => trivial
    | ok _ =>
      intro x s hash t hserve
      refine ⟨by rintro ⟨⟩, fun x' s' verified t' hserve' => ⟨by rintro ⟨⟩, ?_⟩⟩
      rcases verified with _ | error | _ | _
      iterate 3 exact fun _ _ _ _ _ => ⟨by rintro ⟨⟩, trivial⟩
      · have hverified : serve lib (.verifyPassword hash request.currentPassword) i x' s' =
            some (some (.ok true), t') := hserve'
        have hright := verifyPassword_result hverified
        rw [← (Prod.mk.inj (Option.some.inj hserve)).1] at hright
        refine (changePassword_stores request ?_).mono fun _ _ _ => trivial
        exact ⟨⟨i, ⟨_, .loadHash⟩, hash, s, t⟩, by simp, trivial, hright⟩

lemma task_stores {task : AuthTask}
    (hsteps : Prog.Steps (machine lib) i (task.prog lib) own p') (hown : own = first ++ l :: rest)
    (hstore : (stored l).isSome) :
    ∃ request, task = .passwordChange request ∧ Found lib request.currentPassword first := by
  have hquiet : ¬ (task.prog lib).All fun access => access.stores = none := by
    intro hall
    have hnone := hsteps.all hall l (by simp [hown])
    rw [stored, hnone] at hstore
    cases hstore
  cases task with
  | passwordChange request =>
    exact ⟨request, rfl, (authPassword_stores request : Stores lib i _ [] _).step hsteps hown hstore⟩
  | login tls password =>
    refine absurd ?_ hquiet
    simp only [AuthTask.prog, authLogin]
    split
    · refine spendArgon2_all.bind fun spent => ?_
      cases spent with
      | error reply => trivial
      | ok _ =>
        refine (verifyAndMint_all password).bind fun minted => ?_
        cases minted
        all_goals trivial
    · trivial
  | logoutAll =>
    refine absurd (rotateSecret_all.bind fun result => ?_) hquiet
    cases result
    all_goals trivial
  | session token =>
    exact absurd ⟨rfl, fun _ => ⟨rfl, fun _ => ⟨rfl, fun _ => ⟨rfl, fun _ => trivial⟩⟩⟩⟩ hquiet

end Requests

section Changes

variable {lib : AuthLibrary}

/-- **A change needs the password in force**, in every run in which no password is
stored between the check of a request and its own store: whatever is stored is
stored by a request that carries a password that matches the hash in force just
before, which is what the change before it has set. -/
theorem change_checked {s : AuthState} {tasks : List AuthTask}
    {labels : List (Label AuthAccess AuthState)} {c : Pool AuthAccess AuthState AuthReply}
    (hrun : Pool.Run (machine lib) ⟨s, tasks.map (AuthTask.prog lib)⟩ labels c)
    (hundisturbed : Undisturbed labels) {first rest : List (Label AuthAccess AuthState)}
    {l : Label AuthAccess AuthState} (hl : labels = first ++ l :: rest)
    (hstore : (stored l).isSome) :
    ∃ request, tasks[l.thread]? = some (.passwordChange request) ∧
      lib.verifyPassword l.before.hash request.currentPassword = .ok true ∧
      ∀ first' l' mid hash, first = first' ++ l' :: mid → stored l' = some hash →
        (∀ l'' ∈ mid, stored l'' = none) →
        lib.verifyPassword hash request.currentPassword = .ok true := by
  have hlt : l.thread < tasks.length := by
    simpa using hrun.thread_lt l (by simp [hl])
  have hthread : (tasks.map (AuthTask.prog lib))[l.thread]? =
      some ((tasks.get ⟨l.thread, hlt⟩).prog lib) := by
    rw [getElem?_map, getElem?_eq_getElem hlt]
    rfl
  obtain ⟨p', -, hsteps⟩ := hrun.steps hthread
  have hown : labels.filter (fun m => m.thread == l.thread) =
      first.filter (fun m => m.thread == l.thread) ++
        l :: rest.filter (fun m => m.thread == l.thread) := by
    rw [hl, filter_append, filter_cons_of_pos (by simp)]
  obtain ⟨request, htask, m, hm, hload, hverify⟩ := task_stores hsteps hown hstore
  obtain ⟨hm, hsame⟩ := mem_filter.mp hm
  obtain ⟨before, mid, rfl⟩ := append_of_mem hm
  have hlabels : labels = before ++ m :: (mid ++ l :: rest) := by
    rw [hl, append_assoc, cons_append]
  have hmid := hundisturbed before m mid l rest hlabels (eq_of_beq hsame) hload hstore
  have hinForce : l.before.hash = m.before.hash := by
    rw [hash_between hrun hlabels hmid, hash_stored hrun m (by simp [hlabels])]
    rw [load_stores_nothing hload]
    rfl
  refine ⟨request, ?_, by rw [hinForce, hverify], ?_⟩
  · rw [getElem?_eq_getElem hlt]
    exact congrArg some htask
  · intro first' l' mid' hash hfirst hl' hmid'
    have hlabels' : labels = first' ++ l' :: (mid' ++ l :: rest) := by
      rw [hl, hfirst, append_assoc, cons_append]
    have hset := hash_between hrun hlabels' hmid'
    rw [hash_stored hrun l' (by simp [hlabels']), hl'] at hset
    rw [← hverify, ← hinForce, hset]
    rfl

lemma undisturbed_of_count
    (h : labels.countP (fun l => (stored l).isSome) ≤ 1) : Undisturbed labels := by
  intro first m mid l rest hlabels _ _ hstore l' hl'
  by_contra hsome
  have hpos : 0 < mid.countP fun l => (stored l).isSome :=
    countP_pos_iff.mpr ⟨l', hl', Option.isSome_iff_ne_none.mpr hsome⟩
  rw [hlabels, countP_append, countP_cons, countP_append, countP_cons,
    if_pos hstore] at h
  omega

end Changes

def servingWith (password : Bytes) : AuthState where
  disk
    | .hash => some (writeHex (0 :: password))
    | .secret => some (writeHex (List.replicate 32 1))
  tmp := fun _ => none
  hash := writeHex (0 :: password)
  secret := List.replicate 32 1
  readers := []
  writer := none
  permits := argon2Permits
  drawn := [List.replicate 32 1]

def oldPassword : Bytes := lit "old password"

def checkSchedule (i : Nat) : List (Nat × Chance) := List.replicate 6 (i, .fine)

def replaceSchedule (i : Nat) (byte : UInt8) : List (Nat × Chance) :=
  (i, .fine) :: (i, .drawing (List.replicate 32 byte)) :: List.replicate 13 (i, .fine)

def oneChange : List AuthTask := [.passwordChange ⟨oldPassword, lit "new password"⟩]

theorem change_checked_alone :
    ∃ labels c first l rest, Pool.Run (machine plainLibrary)
        ⟨servingWith oldPassword, oneChange.map (AuthTask.prog plainLibrary)⟩ labels c ∧
      labels = first ++ l :: rest ∧ (stored l).isSome ∧
      ∃ request, oneChange[l.thread]? = some (.passwordChange request) ∧
        plainLibrary.verifyPassword l.before.hash request.currentPassword = .ok true := by
  obtain ⟨⟨labels, c⟩, hexec, hr⟩ := (Option.any_eq_true _ _).mp
    (show (served (servingWith oldPassword) oneChange
        (checkSchedule 0 ++ replaceSchedule 0 2)).any (fun (labels, _) =>
      decide (labels.countP (fun l => (stored l).isSome) ≤ 1) &&
        labels.any fun l => (stored l).isSome) = true by decide +kernel)
  rw [Bool.and_eq_true, decide_eq_true_eq, any_eq_true] at hr
  obtain ⟨hcount, l, hl, hstore⟩ := hr
  obtain ⟨first, rest, hlabels⟩ := append_of_mem hl
  have hrun := Pool.run_of_exec hexec
  obtain ⟨request, hrequest, hverify, -⟩ :=
    change_checked hrun (undisturbed_of_count hcount) hlabels hstore
  exact ⟨labels, c, first, l, rest, hrun, hlabels, hstore, request, hrequest, hverify⟩

def twoChanges : List AuthTask :=
  [.passwordChange ⟨oldPassword, lit "one password"⟩,
    .passwordChange ⟨oldPassword, lit "two password"⟩]

/-- **Two changes with one password.** Both requests are checked, then both are
stored, and what the second carries does not match what the first has set. -/
theorem both_changes_stored :
    ∃ labels c first l rest hash, Pool.Run (machine plainLibrary)
        ⟨servingWith oldPassword, twoChanges.map (AuthTask.prog plainLibrary)⟩ labels c ∧
      labels = first ++ l :: rest ∧ l.thread = 1 ∧ stored l = some hash ∧
      (∃ l' ∈ first, l'.thread = 0 ∧ (stored l').isSome) ∧
      plainLibrary.verifyPassword l.before.hash oldPassword = .ok false := by
  obtain ⟨⟨labels, c⟩, hexec, hr⟩ := (Option.any_eq_true _ _).mp
    (show (served (servingWith oldPassword) twoChanges
        (checkSchedule 0 ++ checkSchedule 1 ++ replaceSchedule 0 2 ++ replaceSchedule 1 3)).any
      (fun (labels, _) => labels[40]?.any fun l =>
        (stored l).any fun _ => decide (l.thread = 1 ∧
          (∃ l' ∈ labels.take 40, l'.thread = 0 ∧ (stored l').isSome) ∧
          l.before.hash ≠ writeHex (0 :: oldPassword))) = true by decide +kernel)
  obtain ⟨l, hl, hstore⟩ := (Option.any_eq_true _ _).mp hr
  obtain ⟨hash, hhash, hfacts⟩ := (Option.any_eq_true _ _).mp hstore
  obtain ⟨hthread, hfirst, hother⟩ := of_decide_eq_true hfacts
  obtain ⟨hlt, rfl⟩ := List.getElem?_eq_some_iff.mp hl
  refine ⟨labels, c, labels.take 40, _, labels.drop 41, hash, Pool.run_of_exec hexec, ?_, hthread,
    hhash, hfirst, ?_⟩
  · rw [getElem_cons_drop, take_append_drop]
  · exact congrArg Except.ok (decide_eq_false hother)

end FastAdHunter.Api.Auth
