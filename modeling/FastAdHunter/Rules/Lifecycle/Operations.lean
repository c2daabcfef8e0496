import FastAdHunter.Lib.Locks
import FastAdHunter.Rules.Lifecycle.Manager

/-!
# The list manager: what it does

The operations of the manager as programs of atomic accesses, each in the order
in which the code makes them; a lock that the code holds until a scope ends is
released there. A compile that cannot be built ends its operation, with the locks
it held released, and is a reply of its own.
-/

namespace FastAdHunter.Rules.Lifecycle

open Lib List

def listText (id : Bytes) : Prog Access (Option Bytes) := do
  match ← Access.pending id with
  | some text => pure (some text)
  | none => Access.readRaw id

/-- Keep a text on disk, or in memory when the disk refuses it. -/
def commitRaw (id text : Bytes) : Prog Access Unit := do
  if ← Access.writeRaw id text then Access.removePending id
  else Access.insertPending id text

/-- The validators of a body; a body without any leaves no file. -/
def cacheValidators (id : Bytes) (validators : Validators) : Prog Access Unit :=
  if validators.isEmpty then Access.removeValidators id
  else Access.writeValidators id validators

def enabledEntries : List Entry → Prog Access (List Entry)
  | [] => pure []
  | entry :: entries => do
      let enabled ← Access.isEnabled entry
      let rest ← enabledEntries entries
      pure (if enabled then entry :: rest else rest)

def gatherTexts : List Bytes → Prog Access (List (Bytes × Bytes))
  | [] => pure []
  | id :: ids => do
      let text ← listText id
      let rest ← gatherTexts ids
      pure (text.elim rest fun text => (id, text) :: rest)

/-- Read every enabled list, then the user rules, and build one ruleset under the
policies as they are then. -/
def compile : Prog Access (Option (Matcher × Stats)) := do
  let entries ← Access.entries
  let enabled ← enabledEntries entries
  let lists ← gatherTexts (enabled.map Entry.id)
  let user ← gatherTexts [userRulesId]
  let policies ← Access.loadPolicies
  pure ((buildMatcher (lists ++ user) policies).map fun matcher =>
    (matcher, statsFor (lists ++ user)))

/-- Compile and publish; the counts, or nothing when the build died. -/
def compileAndSwap : Prog Access (Option Stats) := do
  match ← compile with
  | none => pure none
  | some (matcher, stats) => do
      Access.storeMatcher matcher
      Access.publishCounts stats
      pure (some stats)

def recompile : Prog Access (Option Stats) := do
  Access.lockCompile
  let stats ← compileAndSwap
  Access.unlockCompile
  pure stats

/-- Under the compile lock: replace the stored copy, unless the list is gone or
the body is rejected. -/
def commitChecked (entry : Entry) (text : Bytes) (validators : Validators)
    (baseline : Option RefreshStats) : Prog Access (Except LifecycleError CommitOutcome) := do
  let live ← Access.find entry.id
  if live.any (·.ptr == entry.ptr) then
    let stats := statsOf text
    let status ← (if baseline.isSome then pure none else Access.status entry.id)
    match rejectionReason text (baseline.or (status.bind ListStatus.compiled)) stats with
    | some reason => pure (.error (.rejectedContent reason))
    | none => do
        commitRaw entry.id text
        cacheValidators entry.id validators
        pure (.ok .committed)
  else pure (.error (.listRemoved entry.id))

/-- Under the list's refresh lock: fetch, and commit what is new. -/
def fetchUnderLock (entry : Entry) : Prog Access (Except LifecycleError CommitOutcome) := do
  Access.noteAttempt entry.id
  let status ← Access.status entry.id
  let stored ← Access.readValidators entry.id
  match ← Access.fetch entry stored with
  | .error error => pure (.error error)
  | .ok .notModified => pure (.ok .unchanged)
  | .ok (.body text validators) => do
      let cached ← listText entry.id
      if cached = some text then do
        cacheValidators entry.id validators
        pure (.ok .unchanged)
      else do
        Access.lockCompile
        let outcome ← commitChecked entry text validators (status.bind ListStatus.compiled)
        Access.unlockCompile
        pure outcome

def fetchAndCommit (entry : Entry) : Prog Access (Except LifecycleError CommitOutcome) := do
  Access.lockRefresh entry
  let outcome ← fetchUnderLock entry
  Access.unlockRefresh entry
  pure outcome

/-- Compile after a refresh of one list and record what it contributes. -/
def finishRefresh (id : Bytes) : Prog Access (Option (Except LifecycleError RefreshStats)) := do
  Access.lockCompile
  match ← compileAndSwap with
  | none => do
      Access.unlockCompile
      pure none
  | some stats => do
      let counts := (stats id).getD .default
      Access.recordStatus id (.ok counts) true
      Access.unlockCompile
      pure (some (.ok counts))

def refreshList (id : Bytes) : Prog Access (Option (Except LifecycleError RefreshStats)) := do
  match ← Access.find id with
  | none => pure (some (.error (.unknownList id)))
  | some entry => do
      if ← Access.isEnabled entry then
        match ← fetchAndCommit entry with
        | .error error => do
            Access.recordStatus id (.fromError error) false
            pure (some (.error error))
        | .ok .unchanged => do
            let status ← Access.status id
            match status.bind ListStatus.compiled with
            | some counts => do
                Access.recordStatus id (.ok counts) true
                pure (some (.ok counts))
            | none => finishRefresh id
        | .ok .committed => finishRefresh id
      else pure (some (.error (.listDisabled id)))

/-- Refresh these lists one after another. -/
def fetchEach : List Entry → Prog Access (List (Entry × Except LifecycleError CommitOutcome))
  | [] => pure []
  | entry :: entries => do
      let outcome ← fetchAndCommit entry
      let rest ← fetchEach entries
      pure ((entry, outcome) :: rest)

/-- Whether some list of a batch has a new text. -/
def anyCommitted (outcomes : List (Entry × Except LifecycleError CommitOutcome)) : Bool :=
  outcomes.any fun outcome => outcome.2.toOption == some .committed

/-- Record the outcome of one list of a batch. The counts of a list are taken out
of those of the compile. -/
def recordOutcome (stats : Stats) (entry : Entry) :
    Except LifecycleError CommitOutcome → Prog Access (RefreshResult × Stats)
  | .ok .committed => do
      let counts := (stats entry.id).getD .default
      Access.recordStatus entry.id (.ok counts) true
      pure (.ok counts, Function.update stats entry.id none)
  | .ok .unchanged => do
      let status ← Access.status entry.id
      match status.bind ListStatus.compiled with
      | some counts => do
          Access.recordStatus entry.id (.ok counts) true
          pure (.ok counts, stats)
      | none => do
          let counts := (stats entry.id).getD .default
          Access.recordStatus entry.id (.ok counts) true
          pure (.ok counts, Function.update stats entry.id none)
  | .error error => do
      Access.recordStatus entry.id (.fromError error) false
      pure (.fromError error, stats)

def recordEach (stats : Stats) :
    List (Entry × Except LifecycleError CommitOutcome) → Prog Access (List (Bytes × RefreshResult))
  | [] => pure []
  | (entry, outcome) :: outcomes => do
      let (result, stats) ← recordOutcome stats entry outcome
      let rest ← recordEach stats outcomes
      pure ((entry.id, result) :: rest)

def refreshAll : Prog Access (Option (List (Bytes × RefreshResult))) := do
  let all ← Access.entries
  let entries ← enabledEntries all
  let outcomes ← fetchEach entries
  if anyCommitted outcomes then
    match ← recompile with
    | none => pure none
    | some stats => do
        let results ← recordEach stats outcomes
        pure (some results)
  else do
    let results ← recordEach (fun _ => none) outcomes
    pure (some results)

/-- The interval of a list in seconds; at least an hour. -/
def interval (hours defaultHours : Nat) : Nat :=
  max (if hours = 0 then defaultHours else hours) 1 * 3600

/-- The enabled lists whose interval has passed since their last attempt. -/
def dueEntries (now : Nat) : List Entry → Prog Access (List Entry)
  | [] => pure []
  | entry :: entries => do
      let due ← (do
        if ← Access.isEnabled entry then
          match ← Access.lastAttempt entry.id with
          | none => pure true
          | some last => do
              let defaultHours ← Access.defaultRefreshHours
              let hours ← Access.refreshHours entry
              pure (decide (last + interval hours defaultHours ≤ now))
        else pure false)
      let rest ← dueEntries now entries
      pure (if due then entry :: rest else rest)

def isDue (now : Nat) (entry : Entry) : Prog Access Bool := do
  if ← Access.isEnabled entry then
    match ← Access.lastAttempt entry.id with
    | none => pure true
    | some last => do
        let defaultHours ← Access.defaultRefreshHours
        let hours ← Access.refreshHours entry
        pure (decide (last + interval hours defaultHours ≤ now))
  else pure false

/-- Refresh the due lists; failures and unchanged lists are recorded on the way,
and the lists with a new text are returned. -/
def fetchDue : List Entry → Prog Access (List Entry)
  | [] => pure []
  | entry :: entries => do
      match ← fetchAndCommit entry with
      | .ok .committed => do
          let rest ← fetchDue entries
          pure (entry :: rest)
      | .ok .unchanged => do
          let status ← Access.status entry.id
          Access.recordStatus entry.id (.ok ((status.bind ListStatus.compiled).getD .default)) true
          fetchDue entries
      | .error error => do
          Access.recordStatus entry.id (.fromError error) false
          fetchDue entries

/-- Record the lists whose new text was compiled. -/
def recordCommitted (stats : Stats) : List Entry → Prog Access Unit
  | [] => pure ()
  | entry :: entries => do
      Access.recordStatus entry.id (.ok ((stats entry.id).getD .default)) true
      recordCommitted (Function.update stats entry.id none) entries

def refreshDueLists : Prog Access (Option Unit) := do
  let now ← Access.now
  let all ← Access.entries
  let due ← dueEntries now all
  let committed ← fetchDue due
  if committed.isEmpty then pure (some ())
  else do
    Access.lockCompile
    match ← compileAndSwap with
    | none => do
        Access.unlockCompile
        pure none
    | some stats => do
        recordCommitted stats committed
        Access.unlockCompile
        pure (some ())

def addList (config : RuleListConfig) : Prog Access (Except LifecycleError Entry) := do
  match ← Access.addEntry config with
  | none => pure (.error (.duplicateList config.id))
  | some entry => do
      Access.resetStatus config.id
      pure (.ok entry)

/-- Under the compile lock: unregister a list whose copy is gone, and compile
without it. -/
def dropList (id : Bytes) : Prog Access (Option (Except LifecycleError Unit)) := do
  if ← Access.removeEntries id then do
    Access.removeStatus id
    Access.forgetAttempt id
    Access.removePending id
    let stats ← compileAndSwap
    pure (stats.map fun _ => .ok ())
  else pure (some (.error (.unknownList id)))

/-- Delete the copy of a list; nothing else happens when that fails. -/
def removeUnderLock (id : Bytes) : Prog Access (Option (Except LifecycleError Unit)) := do
  Access.removeValidators id
  match ← Access.removeRaw id with
  | .ok () => dropList id
  | .error causes => pure (some (.error (.cacheRemove id causes)))

def removeList (id : Bytes) : Prog Access (Option (Except LifecycleError Unit)) := do
  match ← Access.find id with
  | none => pure (some (.error (.unknownList id)))
  | some _ => do
      Access.lockCompile
      let result ← removeUnderLock id
      Access.unlockCompile
      pure result

structure ListPatch where
  enabled : Option Bool
  refreshHours : Option (Option Nat)
  deriving DecidableEq

structure ListEntryView where
  id : Bytes
  url : Bytes
  enabled : Bool
  refreshHours : Option Nat
  deriving DecidableEq

def view (entry : Entry) : Prog Access ListEntryView := do
  let enabled ← Access.isEnabled entry
  let hours ← Access.refreshHours entry
  pure ⟨entry.id, entry.url, enabled, if hours = 0 then none else some hours⟩

/-- Set the switch of a list; whether that changed it. -/
def setEnabled (entry : Entry) : Option Bool → Prog Access Bool
  | none => pure false
  | some enabled => do
      let before ← Access.swapEnabled entry enabled
      pure (before != enabled)

def setHours (entry : Entry) : Option (Option Nat) → Prog Access Unit
  | none => pure ()
  | some hours => Access.storeRefreshHours entry (hours.getD 0)

def updateList (id : Bytes) (patch : ListPatch) :
    Prog Access (Option (Except LifecycleError ListEntryView)) := do
  match ← Access.find id with
  | none => pure (some (.error (.unknownList id)))
  | some entry => do
      let changed ← setEnabled entry patch.enabled
      setHours entry patch.refreshHours
      let compiled ← (if changed then do
          let stats ← recompile
          pure stats.isSome
        else pure true)
      if compiled then do
        let entry ← view entry
        pure (some (.ok entry))
      else pure none

def setUserRules (text : Bytes) : Prog Access (Option RefreshStats) := do
  Access.lockCompile
  commitRaw userRulesId text
  match ← compileAndSwap with
  | none => do
      Access.unlockCompile
      pure none
  | some stats => do
      let counts := (stats userRulesId).getD .default
      Access.recordStatus userRulesId (.ok counts) true
      Access.unlockCompile
      pure (some counts)

/-- Replace the policies, then the ruleset that was built for them. -/
def setPolicies (policies : PolicySet) : Prog Access (Option Unit) := do
  Access.storePolicies policies
  let stats ← recompile
  pure (stats.map fun _ => ())

/-- Take both refresh clocks of the lists from the age of their copies. -/
def seedClocks (wallNow now : Nat) : List Entry → Prog Access Unit
  | [] => pure ()
  | entry :: entries => do
      match ← Access.rawAge entry.id with
      | none => pure ()
      | some age => do
          if age ≤ wallNow then Access.seedRefreshed entry.id (wallNow - age)
          let defaultHours ← Access.defaultRefreshHours
          let hours ← Access.refreshHours entry
          if age < interval hours defaultHours ∧ age ≤ now then
            Access.seedAttempt entry.id (now - age)
      seedClocks wallNow now entries

/-- Delete the files of ids that nothing claims. -/
def removeOrphans (keep : List Bytes) : List CacheFile → Prog Access Unit
  | [] => pure ()
  | .raw id :: files => do
      if !keep.contains id then
        let _ ← Access.removeRaw id
      removeOrphans keep files
  | .validators id :: files => do
      if !keep.contains id then Access.removeValidators id
      removeOrphans keep files

/-- Compile from the copies on disk, without the network. -/
def boot : Prog Access (Option Unit) := do
  Access.lockCompile
  match ← compileAndSwap with
  | none => do
      Access.unlockCompile
      pure none
  | some stats => do
      let wallNow ← Access.now
      let now ← Access.now
      let seeded ← Access.entries
      seedClocks wallNow now seeded
      let kept ← Access.entries
      let files ← Access.listing
      removeOrphans (userRulesId :: kept.map Entry.id) files
      Access.fillResults stats
      Access.unlockCompile
      pure (some ())

/-- Accesses that only read, or record how a refresh went. -/
def Access.Minor {β : Type} : Access β → Prop
  | .find _ | .entries | .isEnabled _ | .refreshHours _ | .defaultRefreshHours | .now
  | .lastAttempt _ | .status _ | .recordStatus _ _ _ | .pending _ | .readRaw _ | .rawAge _
  | .listing | .readValidators _ | .loadPolicies => True
  | _ => False

lemma listText_minor (id : Bytes) : (listText id).All Access.Minor := by
  refine ⟨trivial, fun text => ?_⟩
  cases text with
  | some text => trivial
  | none => exact ⟨trivial, fun _ => trivial⟩

lemma enabledEntries_minor (entries : List Entry) : (enabledEntries entries).All Access.Minor := by
  induction entries with
  | nil => trivial
  | cons entry entries ih => exact ⟨trivial, fun _ => ih.bind fun _ => trivial⟩

lemma gatherTexts_minor (ids : List Bytes) : (gatherTexts ids).All Access.Minor := by
  induction ids with
  | nil => trivial
  | cons id ids ih => exact (listText_minor id).bind fun _ => ih.bind fun _ => trivial

lemma compile_minor : compile.All Access.Minor :=
  ⟨trivial, fun entries => (enabledEntries_minor entries).bind fun _ =>
    (gatherTexts_minor _).bind fun _ => (gatherTexts_minor _).bind fun _ =>
      ⟨trivial, fun _ => trivial⟩⟩

lemma compileAndSwap_all (hminor : ∀ {β : Type} (op : Access β), op.Minor → P op)
    (hpublish : ∀ stats, P (.publishCounts stats)) (hstore : ∀ matcher, P (.storeMatcher matcher)) :
    compileAndSwap.All P := by
  refine (compile_minor.mono hminor).bind fun result => ?_
  match result with
  | none => trivial
  | some (matcher, stats) => exact ⟨hstore matcher, fun _ => ⟨hpublish stats, fun _ => trivial⟩⟩

/-- The counts of the last compile, where those of the attempt are missing. -/
lemma fallback_minor (baseline : Option RefreshStats) (id : Bytes) :
    (if baseline.isSome then pure none else liftM (Access.status id) :
      Prog Access (Option ListStatus)).All Access.Minor := by
  split
  · trivial
  · exact ⟨trivial, fun _ => trivial⟩

lemma recordOutcome_minor (stats : Stats) (entry : Entry)
    (outcome : Except LifecycleError CommitOutcome) :
    (recordOutcome stats entry outcome).All Access.Minor := by
  match outcome with
  | .ok .committed => exact ⟨trivial, fun _ => trivial⟩
  | .ok .unchanged =>
    simp only [recordOutcome, Prog.lift_bind]
    refine ⟨trivial, fun status => ?_⟩
    dsimp only
    split
    all_goals exact ⟨trivial, fun _ => trivial⟩
  | .error _ => exact ⟨trivial, fun _ => trivial⟩

lemma recordEach_minor (stats : Stats)
    (outcomes : List (Entry × Except LifecycleError CommitOutcome)) :
    (recordEach stats outcomes).All Access.Minor := by
  induction outcomes generalizing stats with
  | nil => trivial
  | cons outcome outcomes ih =>
    exact (recordOutcome_minor stats _ _).bind fun r => (ih r.2).bind fun _ => trivial

lemma isDue_minor (now : Nat) (entry : Entry) : (isDue now entry).All Access.Minor := by
  refine ⟨trivial, fun enabled => ?_⟩
  cases enabled with
  | false => trivial
  | true =>
    refine ⟨trivial, fun last => ?_⟩
    cases last with
    | none => trivial
    | some last => exact ⟨trivial, fun _ => ⟨trivial, fun _ => trivial⟩⟩

lemma dueEntries_minor (now : Nat) (entries : List Entry) :
    (dueEntries now entries).All Access.Minor := by
  induction entries with
  | nil => trivial
  | cons entry entries ih =>
    exact (isDue_minor now entry).bind fun _ => ih.bind fun _ => trivial

lemma recordCommitted_minor (stats : Stats) (entries : List Entry) :
    (recordCommitted stats entries).All Access.Minor := by
  induction entries generalizing stats with
  | nil => trivial
  | cons entry entries ih => exact ⟨trivial, fun _ => ih _⟩

/-- Minor accesses, and those that set the clocks of a list. -/
def Access.Seeding {β : Type} : Access β → Prop
  | .seedRefreshed _ _ | .seedAttempt _ _ => True
  | op => op.Minor

lemma seedClocks_seeding (wallNow now : Nat) (entries : List Entry) :
    (seedClocks wallNow now entries).All Access.Seeding := by
  induction entries with
  | nil => trivial
  | cons entry entries ih =>
    simp only [seedClocks, Prog.lift_bind]
    refine ⟨trivial, fun age => ?_⟩
    cases age with
    | none => exact ih
    | some age =>
      have hattempt : ∀ defaultHours hours : Nat,
          (if age < interval hours defaultHours ∧ age ≤ now then do
              Access.seedAttempt entry.id (now - age)
              seedClocks wallNow now entries
            else seedClocks wallNow now entries : Prog Access Unit).All Access.Seeding := by
        intro defaultHours hours
        split
        · exact ⟨trivial, fun _ => ih⟩
        · exact ih
      dsimp only
      split
      · exact ⟨trivial, fun _ => ⟨trivial, fun _ => ⟨trivial, fun _ => hattempt _ _⟩⟩⟩
      · exact ⟨trivial, fun _ => ⟨trivial, fun _ => hattempt _ _⟩⟩

lemma view_minor (entry : Entry) : (view entry).All Access.Minor :=
  ⟨trivial, fun _ => ⟨trivial, fun _ => trivial⟩⟩

/-- What the manager is asked to do. -/
inductive Operation where
  | refreshList (id : Bytes)
  | refreshAll
  | refreshDueLists
  | updateList (id : Bytes) (patch : ListPatch)
  | removeList (id : Bytes)
  | setUserRules (text : Bytes)
  | setPolicies (policies : PolicySet)
  | addList (config : RuleListConfig)
  | boot

def Operation.Refreshes : Operation → Prop
  | .refreshList _ | .refreshAll | .refreshDueLists => True
  | _ => False

/-- How an operation ends. -/
inductive Reply where
  | refreshed (result : Except LifecycleError RefreshStats)
  | refreshedAll (results : List (Bytes × RefreshResult))
  | scheduled
  | updated (result : Except LifecycleError ListEntryView)
  | removed (result : Except LifecycleError Unit)
  | userRules (counts : RefreshStats)
  | policies
  | added (result : Except LifecycleError Entry)
  | booted
  | panicked

def Operation.program : Operation → Prog Access Reply
  | .refreshList id => do
      let result ← Lifecycle.refreshList id
      pure (result.elim .panicked .refreshed)
  | .refreshAll => do
      let results ← Lifecycle.refreshAll
      pure (results.elim .panicked .refreshedAll)
  | .refreshDueLists => do
      let result ← Lifecycle.refreshDueLists
      pure (result.elim .panicked fun _ => .scheduled)
  | .updateList id patch => do
      let result ← Lifecycle.updateList id patch
      pure (result.elim .panicked .updated)
  | .removeList id => do
      let result ← Lifecycle.removeList id
      pure (result.elim .panicked .removed)
  | .setUserRules text => do
      let result ← Lifecycle.setUserRules text
      pure (result.elim .panicked .userRules)
  | .setPolicies policies => do
      let result ← Lifecycle.setPolicies policies
      pure (result.elim .panicked fun _ => .policies)
  | .addList config => do
      let result ← Lifecycle.addList config
      pure (.added result)
  | .boot => do
      let result ← Lifecycle.boot
      pure (result.elim .panicked fun _ => .booted)

def together (s : Manager) (ops : List Operation) : Pool Access Manager Reply :=
  ⟨s, ops.map Operation.program⟩

/-- The policies of a setup that configures none. -/
def defaultPolicies : PolicySet :=
  ⟨fun _ => ⟨0, 0⟩, [⟨lit "default", none⟩], []⟩

/-- The ruleset without rules. -/
def emptyRuleset : Matcher :=
  (buildMatcher [] defaultPolicies).get (by decide +kernel)

/-- A manager without lists. -/
def emptyManager : Manager where
  entries := []
  enabled _ := false
  refreshHours _ := 0
  nextPtr := 0
  refreshLock _ := none
  compileLock := none
  lastAttempted _ := none
  status _ := none
  pending _ := none
  raw _ := none
  validators _ := none
  policies := defaultPolicies
  defaultRefreshHours := 24
  matcher := emptyRuleset

/-- A list and the ruleset before its first refresh. -/
def oneList : Manager :=
  { emptyManager with
    entries := [⟨0, lit "ads", lit "https://lists.example/ads.txt"⟩]
    enabled := fun _ => true
    nextPtr := 1 }

/-- The list with a copy that is compiled. -/
def storedList (text : Bytes) : Manager :=
  { oneList with
    raw := Function.update oneList.raw (lit "ads") (some text)
    status := Function.update oneList.status (lit "ads")
      (some ⟨some 0, .ok (statsOf text), some (statsOf text)⟩)
    matcher := (buildMatcher [(lit "ads", text)] defaultPolicies).getD emptyRuleset }

def answered (text : Bytes) : Choice :=
  .fetched (.ok (.body text .none))

/-- Threads that take turns of so many steps each, with nothing failing and the
clock at zero. -/
def turns (rounds : List (Nat × Nat)) : List (Nat × Choice) :=
  rounds.flatMap fun round => List.replicate round.2 (round.1, .at 0)

/-- A thread that ran to its end. -/
def completed : Prog Access Reply → Bool
  | .ret .panicked => false
  | .ret _ => true
  | .act _ _ => false

/-- Some rule decides a host for a client of the default policy. -/
def Matcher.decides (m : Matcher) (host : Bytes) : Bool :=
  (m.lookupIn host .a ⟨.default, none, none⟩).any fun decision => decision ≠ .pass

/-- The lists that an access hands out. -/
def Access.Yields {β : Type} : Access β → β → Entry → Prop
  | .find _, found, entry => found = some entry
  | .entries, all, entry => entry ∈ all
  | _, _, _ => False

lemma Access.Yields.mem (h : op.Yields b entry) (hrun : machine.run op i x s = some (b, t)) :
    entry ∈ s.entries := by
  cases op <;> first | exact h.elim | skip
  case find id =>
    cases hrun
    exact mem_of_find?_eq_some h
  case entries =>
    cases hrun
    exact h

lemma subset_select {chosen : Bool}
    (h : rest ⊆ entries) : (if chosen then entry :: rest else rest) ⊆ entry :: entries := by
  split
  · exact cons_subset_cons entry h
  · exact subset_cons_of_subset entry h

lemma enabledEntries_returns (entries : List Entry) :
    (enabledEntries entries).Returns (· ⊆ entries) := by
  induction entries with
  | nil => exact List.Subset.refl []
  | cons entry entries ih => exact fun enabled => ih.bind fun rest hrest => subset_select hrest

lemma dueEntries_returns (now : Nat) (entries : List Entry) :
    (dueEntries now entries).Returns (· ⊆ entries) := by
  induction entries with
  | nil => exact List.Subset.refl []
  | cons entry entries ih =>
    exact (Prog.Returns.any _).bind fun due _ => ih.bind fun rest hrest => subset_select hrest

/-- A way to judge programs, in states that change. What it says of one access, of the fetch
of a list and of a compile decides what it says of every refresh: lists are fetched in an
`Open` state, with the compile lock it is `Held`, and after a commit a state is not `Clean`
until its texts are compiled. -/
structure Discipline (C : Type) where
  Judges : {α : Type} → (α → C → Prop) → Prog Access α → C → Prop
  Same : C → C → Prop
  Knows : C → Entry → Prop := fun _ _ => True
  Open : C → Prop
  Held : C → Prop := fun _ => True
  Clean : C → Prop := fun _ => True
  refl (c : C) : Same c c
  trans {c d e : C} : Same c d → Same d e → Same c e
  knows {c d : C} {entry : Entry} : Same c d → Knows c entry → Knows d entry := by intros; trivial
  opened {c d : C} : Same c d → Open c → Open d
  held {c d : C} : Same c d → Held c → Held d := by intros; trivial
  clean {c d : C} : Same c d → Clean c → Clean d := by intros; trivial
  ret {α : Type} {Q : α → C → Prop} {a : α} {c : C} : Open c → (∀ d, Same c d → Q a d) →
    Judges Q (.ret a) c
  minor {α β : Type} {Q : α → C → Prop} {op : Access β} {next : β → Prog Access α} {c : C} :
    op.Minor → (∀ b d, Same c d → (∀ entry, op.Yields b entry → Knows d entry) →
      Judges Q (next b) d) → Judges Q (.act op next) c
  fetches {α : Type} {Q : α → C → Prop} {entry : Entry}
    {k : Except LifecycleError CommitOutcome → Prog Access α} {c : C} : Open c → Knows c entry →
    (∀ outcome d, Open d → (∀ other, Knows c other → Knows d other) →
      (outcome ≠ .ok .committed → Clean c → Clean d) → Judges Q (k outcome) d) →
    Judges Q (fetchAndCommit entry >>= k) c
  locks {α : Type} {Q : α → C → Prop} {next : Unit → Prog Access α} {c : C} : Open c →
    (∀ d, Held d → Judges Q (next ()) d) → Judges Q (.act .lockCompile next) c
  compiles {α : Type} {Q : α → C → Prop} {k : Option Stats → Prog Access α} {c : C} : Held c →
    (∀ stats d, Held d → (stats.isSome → Clean d) → Judges Q (k stats) d) →
    Judges Q (compileAndSwap >>= k) c
  unlocks {α : Type} {Q : α → C → Prop} {next : Unit → Prog Access α} {c : C} : Held c →
    (∀ d, Open d → (Clean c → Clean d) → Judges Q (next ()) d) →
    Judges Q (.act .unlockCompile next) c

namespace Discipline

variable {C α β : Type} (D : Discipline C) {c : C} {Q : α → C → Prop}

/-- How a refresh ends, if no compile failed. -/
def Ends (r : Option α) (d : C) : Prop :=
  D.Open d ∧ (r.isSome → D.Clean d)

lemma stops (hopen : D.Open c) (hclean : r.isSome → D.Clean c) :
    D.Judges D.Ends (.ret r) c :=
  D.ret hopen fun _ hd => ⟨D.opened hd hopen, fun hr => D.clean hd (hclean hr)⟩

lemma passes (hp : p.All Access.Minor) (hP : p.Returns P)
    (h : ∀ b d, P b → D.Same c d → D.Judges Q (k b) d) : D.Judges Q (p >>= k) c := by
  induction p generalizing c with
  | ret b => exact h b c hP (D.refl c)
  | act op next ih =>
    exact D.minor hp.1 fun b d hd _ => ih b (hp.2 b) (hP b) fun a e ha he =>
      h a e ha (D.trans hd he)

lemma compile_ends {rest : Stats → Prog Access Unit}
    (hrest : ∀ stats, (rest stats).All Access.Minor) (value : Stats → α) (hopen : D.Open c) :
    D.Judges D.Ends (do
      Access.lockCompile
      match ← compileAndSwap with
      | none => do
          Access.unlockCompile
          pure none
      | some stats => do
          rest stats
          Access.unlockCompile
          pure (some (value stats))) c := by
  refine D.locks hopen fun d hheld => D.compiles hheld fun stats e hheld' hclean => ?_
  cases stats with
  | none => exact D.unlocks hheld' fun f hopen' _ => D.stops hopen' nofun
  | some stats =>
    refine D.passes (hrest stats) (.any _) fun _ f _ hf => D.unlocks (D.held hf hheld') ?_
    exact fun g hopen' hkept => D.stops hopen' fun _ => hkept (D.clean hf (hclean rfl))

lemma finishRefresh_ends (hopen : D.Open c) (id : Bytes) :
    D.Judges D.Ends (finishRefresh id) c := by
  have hrecord : ∀ stats : Stats, (Prog.act (.recordStatus id (.ok ((stats id).getD .default)) true)
      .ret : Prog Access Unit).All Access.Minor := fun _ => ⟨trivial, fun _ => trivial⟩
  exact D.compile_ends hrecord (fun stats => Except.ok ((stats id).getD .default)) hopen

lemma refreshList_ends (hopen : D.Open c) (hclean : D.Clean c) (id : Bytes) :
    D.Judges D.Ends (refreshList id) c := by
  simp only [refreshList, Prog.lift_bind]
  refine D.minor (by trivial) fun found d hd hknows => ?_
  cases found with
  | none => exact D.stops (D.opened hd hopen) fun _ => D.clean hd hclean
  | some entry =>
    refine D.minor (by trivial) fun enabled e he _ => ?_
    have hopen₁ := D.opened (D.trans hd he) hopen
    have hclean₁ := D.clean (D.trans hd he) hclean
    cases enabled with
    | false => exact D.stops hopen₁ fun _ => hclean₁
    | true =>
      refine D.fetches hopen₁ (D.knows he (hknows entry rfl)) fun outcome f hopen₂ _ hkept => ?_
      match outcome with
      | .error error =>
        refine D.minor (by trivial) fun _ g hg _ => D.stops (D.opened hg hopen₂) fun _ => ?_
        exact D.clean hg (hkept (by simp) hclean₁)
      | .ok .unchanged =>
        refine D.minor (by trivial) fun status g hg _ => ?_
        split
        · refine D.minor (by trivial) fun _ g' hg' _ => ?_
          have hfg := D.trans hg hg'
          exact D.stops (D.opened hfg hopen₂) fun _ => D.clean hfg (hkept (by simp) hclean₁)
        · exact D.finishRefresh_ends (D.opened hg hopen₂) id
      | .ok .committed => exact D.finishRefresh_ends hopen₂ id

lemma fetchEach_judged (hopen : D.Open c) (hknows : ∀ entry ∈ entries, D.Knows c entry)
    (h : ∀ outcomes d, D.Open d → (anyCommitted outcomes = false → D.Clean c → D.Clean d) →
      D.Judges Q (k outcomes) d) : D.Judges Q (fetchEach entries >>= k) c := by
  induction entries generalizing c k with
  | nil => exact h [] c hopen fun _ hc => hc
  | cons entry entries ih =>
    obtain ⟨hentry, hentries⟩ := forall_mem_cons.mp hknows
    rw [fetchEach, Prog.bind_assoc]
    refine D.fetches hopen hentry fun outcome d hd hknown hkept => ?_
    rw [Prog.bind_assoc]
    refine ih hd (fun x hx => hknown x (hentries x hx)) fun rest e he hrest => h _ e he ?_
    intro hnone hclean
    rw [anyCommitted, any_cons, Bool.or_eq_false_iff] at hnone
    refine hrest hnone.2 (hkept ?_ hclean)
    rintro rfl
    exact absurd hnone.1 (by simp [Except.toOption])

lemma refreshAll_ends (hopen : D.Open c) (hclean : D.Clean c) :
    D.Judges D.Ends refreshAll c := by
  simp only [refreshAll, Prog.lift_bind]
  refine D.minor (by trivial) fun all d hd hknows => ?_
  refine D.passes (enabledEntries_minor all) (enabledEntries_returns all) fun enabled e hsub he => ?_
  have hde := D.trans hd he
  refine D.fetchEach_judged (D.opened hde hopen)
    (fun entry hentry => D.knows he (hknows entry (hsub hentry))) fun outcomes f hopen₁ hkept => ?_
  have hrecord : ∀ stats {g}, D.Open g → D.Clean g → D.Judges D.Ends
      (recordEach stats outcomes >>= fun results => pure (some results)) g := by
    intro stats g hopen₂ hclean₂
    refine D.passes (recordEach_minor stats outcomes) (.any _) fun results g' _ hg' => ?_
    exact D.stops (D.opened hg' hopen₂) fun _ => D.clean hg' hclean₂
  split
  · simp only [recompile, Prog.lift_bind, Prog.act_bind, Prog.bind_assoc]
    refine D.locks hopen₁ fun g hheld => D.compiles hheld fun stats g₁ hheld₁ hpaid => ?_
    refine D.unlocks hheld₁ fun g₂ hopen₂ hkept₂ => ?_
    cases stats with
    | none => exact D.stops hopen₂ nofun
    | some stats => exact hrecord stats hopen₂ (hkept₂ (hpaid rfl))
  · next hnone => exact hrecord _ hopen₁ (hkept (by simpa using hnone) (D.clean hde hclean))

lemma fetchDue_judged (hopen : D.Open c) (hknows : ∀ entry ∈ entries, D.Knows c entry)
    (h : ∀ committed d, D.Open d → (committed.isEmpty → D.Clean c → D.Clean d) →
      D.Judges Q (k committed) d) : D.Judges Q (fetchDue entries >>= k) c := by
  induction entries generalizing c k with
  | nil => exact h [] c hopen fun _ hc => hc
  | cons entry entries ih =>
    obtain ⟨hentry, hentries⟩ := forall_mem_cons.mp hknows
    rw [fetchDue, Prog.bind_assoc]
    refine D.fetches hopen hentry fun outcome d hd hknown hkept => ?_
    have hrest : outcome ≠ .ok .committed → ∀ {e}, D.Same d e →
        D.Judges Q (fetchDue entries >>= k) e := by
      intro hne e he
      refine ih (D.opened he hd) (fun x hx => D.knows he (hknown x (hentries x hx))) ?_
      exact fun committed f hf hkept' => h committed f hf fun hempty hc =>
        hkept' hempty (D.clean he (hkept hne hc))
    match outcome with
    | .ok .committed =>
      rw [Prog.bind_assoc]
      exact ih hd (fun x hx => hknown x (hentries x hx)) fun rest e he _ => h _ e he nofun
    | .ok .unchanged =>
      exact D.minor (by trivial) fun status e he _ => D.minor (by trivial) fun _ f hf _ =>
        hrest (by simp) (D.trans he hf)
    | .error error => exact D.minor (by trivial) fun _ e he _ => hrest (by simp) he

lemma refreshDueLists_ends (hopen : D.Open c) (hclean : D.Clean c) :
    D.Judges D.Ends refreshDueLists c := by
  simp only [refreshDueLists, Prog.lift_bind]
  refine D.minor (by trivial) fun now d₁ h₁ _ => D.minor (by trivial) fun all d h₂ hknows => ?_
  refine D.passes (dueEntries_minor now all) (dueEntries_returns now all) fun due e hsub he => ?_
  have hde := D.trans (D.trans h₁ h₂) he
  refine D.fetchDue_judged (D.opened hde hopen)
    (fun entry hentry => D.knows he (hknows entry (hsub hentry))) fun committed f hopen₁ hkept => ?_
  split
  · next hempty => exact D.stops hopen₁ fun _ => hkept hempty (D.clean hde hclean)
  · exact D.compile_ends (recordCommitted_minor · committed) (fun _ => ()) hopen₁

end Discipline

section Locking

/-- Texts, lists and rulesets are replaced under the compile lock. -/
def Access.compileUse {β : Type} : Access β → LockUse
  | .lockCompile => .acquire
  | .unlockCompile => .release
  | .removeEntries _ | .insertPending _ _ | .removePending _ | .writeRaw _ _ | .removeRaw _
  | .publishCounts _ | .fillResults _ | .storeMatcher _ => .guarded
  | _ => .free

def compileLock : Lock machine where
  holder := Manager.compileLock
  use := Access.compileUse
  acquires {β op i x s b t} huse hrun := by
    cases op <;> cases huse
    obtain ⟨holder, hfree, heq⟩ := Option.map_eq_some_iff.mp hrun
    cases heq
    rw [acquire] at hfree
    split at hfree
    · next hnone =>
      cases hfree
      exact ⟨hnone, rfl⟩
    · cases hfree
  releases {β op i x s b t} huse hrun := by
    cases op <;> cases huse
    cases hrun
    rfl
  keeps {β op i x s b t} huse hrun := by
    refine (frame_of_run hrun).compileLock fun htouches => ?_
    cases op <;> simp [Access.touches, Access.compileUse] at htouches huse

variable {α : Type} {held : Bool}

lemma locks_of_minor (hp : p.All Access.Minor) :
    compileLock.Keeps held held p :=
  .of_all (hp.mono fun op h => by cases op <;> first | rfl | exact h.elim) held

lemma commitRaw_locks (id text : Bytes) : compileLock.Keeps true true (commitRaw id text) := by
  refine ⟨true, rfl, fun written => ?_⟩
  cases written with
  | true | false => exact ⟨true, rfl, fun _ => rfl⟩

lemma cacheValidators_locks (id : Bytes) (validators : Validators) :
    compileLock.Keeps held held (cacheValidators id validators) := by
  rw [cacheValidators]
  split
  all_goals exact ⟨held, rfl, fun _ => rfl⟩

lemma compileAndSwap_locks : compileLock.Keeps true true compileAndSwap := by
  refine (locks_of_minor compile_minor).bind fun result => ?_
  match result with
  | none => rfl
  | some (matcher, stats) => exact ⟨true, rfl, fun _ => ⟨true, rfl, fun _ => rfl⟩⟩

lemma recompile_locks : compileLock.Keeps false false recompile :=
  ⟨true, rfl, fun _ => compileAndSwap_locks.bind fun _ => ⟨false, rfl, fun _ => rfl⟩⟩

lemma commitChecked_locks (entry : Entry) (text : Bytes) (validators : Validators)
    (baseline : Option RefreshStats) :
    compileLock.Keeps true true (commitChecked entry text validators baseline) := by
  simp only [commitChecked, Prog.lift_bind]
  refine ⟨true, rfl, fun live => ?_⟩
  dsimp only
  split
  · refine (locks_of_minor (fallback_minor baseline entry.id)).bind fun status => ?_
    split
    · rfl
    · exact (commitRaw_locks _ _).bind fun _ => (cacheValidators_locks _ _).bind fun _ => rfl
  · rfl

lemma fetchAndCommit_locks (entry : Entry) :
    compileLock.Keeps false false (fetchAndCommit entry) := by
  have hfetch : compileLock.Keeps false false (fetchUnderLock entry) := by
    refine ⟨false, rfl, fun _ => ⟨false, rfl, fun status => ⟨false, rfl, fun stored =>
      ⟨false, rfl, fun outcome => ?_⟩⟩⟩⟩
    match outcome with
    | .error _ => rfl
    | .ok .notModified => rfl
    | .ok (.body text validators) =>
      refine (locks_of_minor (listText_minor entry.id)).bind fun cached => ?_
      split
      · exact (cacheValidators_locks _ _).bind fun _ => rfl
      · exact ⟨true, rfl, fun _ => (commitChecked_locks _ _ _ _).bind fun _ =>
          ⟨false, rfl, fun _ => rfl⟩⟩
  exact ⟨false, rfl, fun _ => hfetch.bind fun _ => ⟨false, rfl, fun _ => rfl⟩⟩

/-- The refreshes keep to the compile lock. -/
def locking : Discipline Bool where
  Judges _ p c := compileLock.Keeps false c p
  Same := Eq
  Open c := c = false
  Held c := c = true
  refl _ := rfl
  trans := Eq.trans
  opened h ho := h ▸ ho
  held h hh := h ▸ hh
  ret ho _ := ho
  minor {_ _ _ op _ c} hop h :=
    ⟨c, by cases op <;> first | rfl | exact hop.elim, fun b => h b c rfl fun _ _ => trivial⟩
  fetches ho _ h := by
    subst ho
    exact (fetchAndCommit_locks _).bind fun r => h r _ rfl (fun _ _ => trivial) fun _ _ => trivial
  locks ho h := by
    subst ho
    exact ⟨true, rfl, fun _ => h _ rfl⟩
  compiles hh h := by
    subst hh
    exact compileAndSwap_locks.bind fun stats => h stats _ rfl fun _ => trivial
  unlocks hh h := by
    subst hh
    exact ⟨false, rfl, fun _ => h _ rfl fun _ => trivial⟩

lemma updateList_locks (id : Bytes) (patch : ListPatch) :
    compileLock.Keeps false false (updateList id patch) := by
  refine ⟨false, rfl, fun found => ?_⟩
  cases found with
  | none => rfl
  | some entry =>
    have hset : compileLock.Keeps false false (setEnabled entry patch.enabled) := by
      cases patch.enabled with
      | none => rfl
      | some enabled => exact ⟨false, rfl, fun _ => rfl⟩
    have hhours : compileLock.Keeps false false (setHours entry patch.refreshHours) := by
      cases patch.refreshHours with
      | none => rfl
      | some hours => exact ⟨false, rfl, fun _ => rfl⟩
    refine hset.bind fun changed => hhours.bind fun _ => Lock.Keeps.bind (m := false) ?_ ?_
    · split
      · exact recompile_locks.bind fun _ => rfl
      · rfl
    · intro compiled
      split
      · exact (locks_of_minor (view_minor entry)).bind fun _ => rfl
      · rfl

lemma removeList_locks (id : Bytes) : compileLock.Keeps false false (removeList id) := by
  have hdrop : compileLock.Keeps true true (dropList id) := by
    refine ⟨true, rfl, fun removed => ?_⟩
    cases removed with
    | false => rfl
    | true =>
      exact ⟨true, rfl, fun _ => ⟨true, rfl, fun _ => ⟨true, rfl, fun _ =>
        compileAndSwap_locks.bind fun _ => rfl⟩⟩⟩
  have hremove : compileLock.Keeps true true (removeUnderLock id) := by
    refine ⟨true, rfl, fun _ => ⟨true, rfl, fun removed => ?_⟩⟩
    cases removed with
    | ok _ => exact hdrop
    | error _ => rfl
  refine ⟨false, rfl, fun found => ?_⟩
  cases found with
  | none => rfl
  | some _ => exact ⟨true, rfl, fun _ => hremove.bind fun _ => ⟨false, rfl, fun _ => rfl⟩⟩

lemma setUserRules_locks (text : Bytes) : compileLock.Keeps false false (setUserRules text) := by
  refine ⟨true, rfl, fun _ => (commitRaw_locks _ text).bind fun _ =>
    compileAndSwap_locks.bind fun stats => ?_⟩
  cases stats with
  | none => exact ⟨false, rfl, fun _ => rfl⟩
  | some stats => exact ⟨true, rfl, fun _ => ⟨false, rfl, fun _ => rfl⟩⟩

lemma removeOrphans_locks (keep : List Bytes) (files : List CacheFile) :
    compileLock.Keeps true true (removeOrphans keep files) := by
  induction files with
  | nil => rfl
  | cons file files ih =>
    cases file <;> rw [removeOrphans] <;> split <;> first | exact ih | exact ⟨true, rfl, fun _ => ih⟩

lemma boot_locks : compileLock.Keeps false false boot := by
  refine ⟨true, rfl, fun _ => compileAndSwap_locks.bind fun stats => ?_⟩
  cases stats with
  | none => exact ⟨false, rfl, fun _ => rfl⟩
  | some stats =>
    have hseed : ∀ wallNow now entries,
        compileLock.Keeps true true (seedClocks wallNow now entries) := fun wallNow now entries =>
      Lock.Keeps.of_all (L := compileLock) ((seedClocks_seeding wallNow now entries).mono
        fun op h => by cases op <;> first | rfl | exact h.elim) true
    refine ⟨true, rfl, fun wallNow => ⟨true, rfl, fun now => ⟨true, rfl, fun seeded => ?_⟩⟩⟩
    refine (hseed wallNow now seeded).bind fun _ => ⟨true, rfl, fun kept => ⟨true, rfl, fun files =>
      (removeOrphans_locks _ files).bind fun _ => ⟨true, rfl, fun _ => ⟨false, rfl, fun _ => rfl⟩⟩⟩⟩

/-- **Every operation keeps to the compile lock.** -/
theorem Operation.locks (op : Operation) : compileLock.Keeps false false op.program := by
  cases op with
  | refreshList id => exact (locking.refreshList_ends rfl trivial id).bind fun _ => rfl
  | refreshAll => exact (locking.refreshAll_ends rfl trivial).bind fun _ => rfl
  | refreshDueLists => exact (locking.refreshDueLists_ends rfl trivial).bind fun _ => rfl
  | updateList id patch => exact (updateList_locks id patch).bind fun _ => rfl
  | removeList id => exact (removeList_locks id).bind fun _ => rfl
  | setUserRules text => exact (setUserRules_locks text).bind fun _ => rfl
  | setPolicies policies =>
    have hset : compileLock.Keeps false false (Lifecycle.setPolicies policies) :=
      ⟨false, rfl, fun _ => recompile_locks.bind fun _ => rfl⟩
    exact hset.bind fun _ => rfl
  | addList config =>
    refine ⟨false, rfl, fun added => ?_⟩
    cases added with
    | none => rfl
    | some _ => exact ⟨false, rfl, fun _ => rfl⟩
  | boot => exact boot_locks.bind fun _ => rfl

/-- **Replacements do not mix.** In every run of any operations from a manager whose
compile lock is free: between two steps of different operations that replace a text, the
lists, the counts or the ruleset, the first operation has released the compile lock. -/
theorem replacements_apart {s : Manager} {ops : List Operation} {c : Pool Access Manager Reply}
    {labels : List (Label Access Manager)} (hfree : s.compileLock = none)
    (hrun : Pool.Run machine (together s ops) labels c) :
    ∀ first l mid m rest, labels = first ++ l :: (mid ++ m :: rest) →
      l.access.2.compileUse = .guarded → m.access.2.compileUse = .guarded →
      l.thread ≠ m.thread → ∃ r ∈ mid, r.thread = l.thread ∧ r.access = ⟨Unit, .unlockCompile⟩ := by
  intro first l mid m rest hlabels hl hm hne
  have horderly : compileLock.Orderly (together s ops) := by
    refine Lock.orderly_of_free hfree fun p hp => ?_
    obtain ⟨op, -, rfl⟩ := List.mem_map.mp hp
    exact op.locks
  obtain ⟨r, hr, hthread, huse⟩ := horderly.released hrun hlabels hl hm hne
  refine ⟨r, hr, hthread, ?_⟩
  obtain ⟨_, ⟨β, op⟩, _, _, _⟩ := r
  cases op <;> cases huse
  rfl

/-- Two sets of user rules are stored, one after the other. -/
theorem replacements_apart_two : ∃ labels c,
    Pool.Run machine (together emptyManager [.setUserRules (lit "||ads.example^"),
        .setUserRules (lit "||tracker.example^")]) labels c ∧
      labels.filterMap (fun l => if l.access.2.compileUse = .guarded then some l.thread else none) =
        [0, 0, 0, 0, 1, 1, 1, 1] ∧
      ∀ first l mid m rest, labels = first ++ l :: (mid ++ m :: rest) →
        l.access.2.compileUse = .guarded → m.access.2.compileUse = .guarded →
        l.thread ≠ m.thread →
        ∃ r ∈ mid, r.thread = l.thread ∧ r.access = ⟨Unit, .unlockCompile⟩ := by
  refine Pool.exists_run (turns [(0, 11), (1, 11)]) _ (by decide +kernel)
    fun labels c hrun hthreads => ⟨hthreads, ?_⟩
  exact replacements_apart rfl hrun

end Locking

end FastAdHunter.Rules.Lifecycle
