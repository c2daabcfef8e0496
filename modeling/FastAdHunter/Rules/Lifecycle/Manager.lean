import FastAdHunter.Lib.Prog
import FastAdHunter.Rules.Policy

/-!
# The list manager: what it shares

The manager's operations run side by side on one state: the registered lists and
their switches, the status of each list, the texts on disk and those that could
not be written, the validators, the policies and the ruleset that serves. Every
access to one of these is atomic; the operations are programs of such accesses.

The network and the disk take part through the choices of the environment: what a
fetch brings, whether a write or a removal fails, and what the clock says. Reads
of the disk are taken to succeed.
-/

namespace FastAdHunter.Rules.Lifecycle

open Lib

/-- Rule counts of one parsed list. -/
structure RefreshStats where
  active : Nat
  url : Nat
  inactive : Nat
  parseErrors : Nat
  deriving DecidableEq

def RefreshStats.default : RefreshStats := ⟨0, 0, 0, 0⟩

def RuleKind.isActive : RuleKind → Bool
  | .active _ => true
  | _ => false

def RuleKind.isUrl : RuleKind → Bool
  | .url _ => true
  | _ => false

def RuleKind.isInactive : RuleKind → Bool
  | .inactive _ => true
  | _ => false

def RefreshStats.of (parsed : ParsedRuleList) : RefreshStats where
  active := parsed.rules.countP RuleKind.isActive
  url := parsed.rules.countP RuleKind.isUrl
  inactive := parsed.rules.countP RuleKind.isInactive
  parseErrors := parsed.parseErrors

def statsOf (text : Bytes) : RefreshStats :=
  .of (parseRuleList text)

def misparseErrorFloor : Nat := 100
def collapseMinBaseline : Nat := 1000
def collapseFactor : Nat := 10

/-- More failures than rules, past a floor. -/
def RefreshStats.looksMisparsed (stats : RefreshStats) : Bool :=
  decide (misparseErrorFloor ≤ stats.parseErrors) &&
    decide (stats.active + stats.url + stats.inactive < stats.parseErrors)

/-- A text without the byte order marks it starts with. -/
def trimMarks : Bytes → Bytes
  | 0xef :: 0xbb :: 0xbf :: text => trimMarks text
  | text => text

def looksLikeHtmlDocument (text : Bytes) : Bool :=
  let head := lower (trimStart (trimMarks text))
  startsWith (lit "<!doctype") head || startsWith (lit "<html") head

/-- A number as it stands in a message. -/
def shown (n : Nat) : Bytes := Net.showRadix 10 n

/-- Why a fetched body may not replace the stored copy. The baseline is what the
list contributes to the ruleset. -/
def rejectionReason (text : Bytes) (baseline : Option RefreshStats) (stats : RefreshStats) :
    Option Bytes :=
  if looksLikeHtmlDocument text then some (lit "html document")
  else if stats.looksMisparsed then
    some (lit "misparse: " ++ shown stats.parseErrors ++ lit " errors, " ++
      shown (stats.active + stats.url + stats.inactive) ++ lit " rules")
  else
    match baseline with
    | none => none
    | some baseline =>
      if baseline.active = 0 then none
      else if stats.active = 0 then
        some (lit "collapse: 0 dns rules vs baseline " ++ shown baseline.active)
      else
        let baselineRules := baseline.active + baseline.url
        if baselineRules < collapseMinBaseline then none
        else
          let fetched := stats.active + stats.url
          if fetched < baselineRules / collapseFactor then
            some (lit "collapse: " ++ shown fetched ++ lit " rules vs baseline " ++
              shown baselineRules)
          else none

/-- Why an operation failed. The texts of causes outside this program come from
the environment, the outermost first. -/
inductive LifecycleError where
  | unknownList (id : Bytes)
  | duplicateList (id : Bytes)
  | listDisabled (id : Bytes)
  | fetch (url : Bytes) (causes : List Bytes)
  | localRead (path : Bytes) (causes : List Bytes)
  | tooLarge (origin : Bytes) (limit : Nat)
  | rejectedContent (reason : Bytes)
  | listRemoved (id : Bytes)
  | cacheRemove (id : Bytes) (causes : List Bytes)
  deriving DecidableEq

namespace LifecycleError

def causes : LifecycleError → List Bytes
  | fetch _ causes => causes
  | localRead _ causes => causes
  | cacheRemove _ causes => causes
  | _ => []

def cause (causes : List Bytes) : Bytes := causes.head?.getD []

def message : LifecycleError → Bytes
  | unknownList id => lit "unknown list id: " ++ id
  | duplicateList id => lit "list id " ++ id ++ lit " already exists"
  | listDisabled id => lit "list " ++ id ++ lit " is disabled"
  | fetch url causes => lit "fetch " ++ url ++ lit " failed: " ++ cause causes
  | localRead path causes => lit "read local list " ++ path ++ lit ": " ++ cause causes
  | tooLarge origin limit =>
    lit "list " ++ origin ++ lit " exceeds the size limit of " ++ shown limit ++ lit " bytes"
  | rejectedContent reason => lit "fetched content rejected: " ++ reason
  | listRemoved id => lit "list " ++ id ++ lit " was removed while its refresh was in flight"
  | cacheRemove id causes => lit "delete cached copy of list " ++ id ++ lit ": " ++ cause causes

/-- The message with every cause that it does not already end in. -/
def chain (error : LifecycleError) : Bytes :=
  error.causes.foldl
    (fun out text => if endsWith text out then out else out ++ lit ": " ++ text) error.message

end LifecycleError

inductive RefreshResult where
  | neverAttempted
  | ok (stats : RefreshStats)
  | failed (message : Bytes)
  | rejected (reason : Bytes)
  deriving DecidableEq

def RefreshResult.fromError : LifecycleError → RefreshResult
  | .rejectedContent reason => .rejected reason
  | error => .failed error.chain

/-- What is known of a list: its last success, its last attempt's outcome, and
what it contributes to the ruleset that serves. -/
structure ListStatus where
  lastRefreshed : Option Nat
  lastResult : RefreshResult
  compiled : Option RefreshStats
  deriving DecidableEq

def ListStatus.default : ListStatus := ⟨none, .neverAttempted, none⟩

structure Validators where
  etag : Option Bytes
  lastModified : Option Bytes
  deriving DecidableEq

def Validators.none : Validators := ⟨.none, .none⟩

def Validators.isEmpty (v : Validators) : Bool :=
  v.etag.isNone && v.lastModified.isNone

/-- The file that validators are stored in: one line each. -/
def Validators.text (v : Validators) : Bytes :=
  v.etag.getD [] ++ [10] ++ v.lastModified.getD [] ++ [10]

def Validators.parse (text : Bytes) : Validators :=
  let field (line : Option Bytes) : Option Bytes := line.filter fun value => !value.isEmpty
  ⟨field (lines text)[0]?, field (lines text)[1]?⟩

inductive FetchOutcome where
  | notModified
  | body (text : Bytes) (validators : Validators)
  deriving DecidableEq

inductive CommitOutcome where
  | committed
  | unchanged
  deriving DecidableEq

/-- Where the text of a list comes from. -/
inductive ListSource where
  | remote (url : Bytes)
  | localFile (path : Bytes)
  deriving DecidableEq

def ListSource.fromUrl (url : Bytes) : ListSource :=
  if startsWith (lit "http://") url || startsWith (lit "https://") url then .remote url
  else .localFile url

structure RuleListConfig where
  id : Bytes
  url : Bytes
  enabled : Bool
  refreshHours : Option Nat
  deriving DecidableEq

/-- A handle on a registered list. Two registrations of one id are told apart by
where they live in memory. -/
structure Entry where
  ptr : Nat
  id : Bytes
  url : Bytes
  deriving DecidableEq

def userRulesId : Bytes := lit "user-rules"

/-- The state that the manager's operations share. -/
structure Manager where
  entries : List Entry
  /-- The switch and the interval of a handle; zero hours stand for the default. -/
  enabled : Nat → Bool
  refreshHours : Nat → Nat
  nextPtr : Nat
  refreshLock : Nat → Option Nat
  compileLock : Option Nat
  lastAttempted : Bytes → Option Nat
  status : Bytes → Option ListStatus
  /-- Texts whose write to disk failed. -/
  pending : Bytes → Option Bytes
  raw : Bytes → Option Bytes
  /-- The text of the validators file. -/
  validators : Bytes → Option Bytes
  policies : PolicySet
  defaultRefreshHours : Nat
  matcher : Matcher

/-- What each list contributes to a compile. -/
abbrev Stats := Bytes → Option RefreshStats

namespace Manager

/-- The current text of a list: the copy that could not be written, else the one
on disk. -/
def text (s : Manager) (id : Bytes) : Option Bytes :=
  (s.pending id).or (s.raw id)

/-- The validators a refresh would send. -/
def storedValidators (s : Manager) (id : Bytes) : Validators :=
  (s.validators id).elim .none Validators.parse

/-- The counts that the status of a list reports. -/
def compiled (s : Manager) (id : Bytes) : Option RefreshStats :=
  (s.status id).bind ListStatus.compiled

/-- Publish what each list contributes: a known list that no longer does reports
nothing. -/
def publish (s : Manager) (stats : Stats) (id : Bytes) : Option ListStatus :=
  match s.status id, stats id with
  | some status, counts => some { status with compiled := counts }
  | none, some counts => some { ListStatus.default with compiled := some counts }
  | none, none => none

/-- Record what a list contributes where nothing was recorded yet. -/
def fill (s : Manager) (stats : Stats) (id : Bytes) : Option ListStatus :=
  match stats id with
  | none => s.status id
  | some counts =>
    let known := (s.status id).getD .default
    some (if known.lastResult = .neverAttempted then { known with lastResult := .ok counts }
      else known)

end Manager

/-- A bound on the rules that a text can hold. -/
def ruleUpperBound (text : Bytes) : Nat :=
  let hosts := detectFormat text == .hosts
  ((lines text).map fun line =>
    let line := trimStart line
    if isIgnorable line then 0
    else if hosts then (splitWhitespace line).length
    else 1).sum

/-- The ruleset of these texts, in order, under a set of policies. -/
def buildMatcher (texts : List (Bytes × Bytes)) (policies : PolicySet) : Option Matcher :=
  Rules.compile ((texts.map fun entry => ruleUpperBound entry.2).sum) policies.policyUniverse
    (texts.map fun entry => ⟨entry.1, entry.2, policies.maskForList entry.1⟩)

/-- What each list contributes; of two texts under one id the later counts. -/
def statsFor (texts : List (Bytes × Bytes)) : Stats := fun id =>
  (texts.reverse.lookup id).map statsOf

/-- A file of the cache directory: the copy or the validators of an id. -/
inductive CacheFile where
  | raw (id : Bytes)
  | validators (id : Bytes)
  deriving DecidableEq

/-- The atomic accesses to the shared state. -/
inductive Access : Type → Type where
  | find (id : Bytes) : Access (Option Entry)
  | entries : Access (List Entry)
  | addEntry (config : RuleListConfig) : Access (Option Entry)
  | removeEntries (id : Bytes) : Access Bool
  | isEnabled (entry : Entry) : Access Bool
  | swapEnabled (entry : Entry) (enabled : Bool) : Access Bool
  | refreshHours (entry : Entry) : Access Nat
  | storeRefreshHours (entry : Entry) (hours : Nat) : Access Unit
  | defaultRefreshHours : Access Nat
  | lockRefresh (entry : Entry) : Access Unit
  | unlockRefresh (entry : Entry) : Access Unit
  | lockCompile : Access Unit
  | unlockCompile : Access Unit
  | now : Access Nat
  | lastAttempt (id : Bytes) : Access (Option Nat)
  | noteAttempt (id : Bytes) : Access Unit
  | forgetAttempt (id : Bytes) : Access Unit
  | status (id : Bytes) : Access (Option ListStatus)
  | resetStatus (id : Bytes) : Access Unit
  | removeStatus (id : Bytes) : Access Unit
  | recordStatus (id : Bytes) (result : RefreshResult) (refreshedNow : Bool) : Access Unit
  | publishCounts (stats : Stats) : Access Unit
  | seedRefreshed (id : Bytes) (time : Nat) : Access Unit
  | seedAttempt (id : Bytes) (time : Nat) : Access Unit
  | fillResults (stats : Stats) : Access Unit
  | pending (id : Bytes) : Access (Option Bytes)
  | insertPending (id text : Bytes) : Access Unit
  | removePending (id : Bytes) : Access Unit
  | readRaw (id : Bytes) : Access (Option Bytes)
  | writeRaw (id text : Bytes) : Access Bool
  | removeRaw (id : Bytes) : Access (Except (List Bytes) Unit)
  | rawAge (id : Bytes) : Access (Option Nat)
  | listing : Access (List CacheFile)
  | readValidators (id : Bytes) : Access Validators
  | writeValidators (id : Bytes) (validators : Validators) : Access Unit
  | removeValidators (id : Bytes) : Access Unit
  | fetch (entry : Entry) (validators : Validators) : Access (Except LifecycleError FetchOutcome)
  | loadPolicies : Access PolicySet
  | storePolicies (policies : PolicySet) : Access Unit
  | storeMatcher (matcher : Matcher) : Access Unit

/-- What the environment decides at an access: the time, a failure with its
causes, what a fetch brings, how old a file is and which files there are. A failed
write of the validators leaves the file as it was, or cut to a length. -/
inductive Choice where
  | go
  | at (time : Nat)
  | fails (causes : List Bytes) (kept : Option Nat)
  | fetched (outcome : Except LifecycleError FetchOutcome)
  | aged (age : Option Nat)
  | listed (files : List CacheFile)

/-- A free lock goes to the thread that asks; a held one makes it wait. -/
def acquire (holder : Option Nat) (i : Nat) : Option (Option Nat) :=
  if holder = none then some (some i) else none

/-- A source answers "not modified" only for a remote list, and only a remote list
has validators. -/
def answers : ListSource → Except LifecycleError FetchOutcome → Bool
  | .remote _, _ => true
  | .localFile _, .ok .notModified => false
  | .localFile _, .ok (.body _ validators) => validators.isEmpty
  | .localFile _, .error _ => true

def Access.run {β : Type} (access : Access β) (i : Nat) (x : Choice) (s : Manager) :
    Option (β × Manager) :=
  match access with
  | .find id => some (s.entries.find? (·.id == id), s)
  | .entries => some (s.entries, s)
  | .addEntry config =>
    if s.entries.any (·.id == config.id) then some (none, s)
    else
      let entry : Entry := ⟨s.nextPtr, config.id, config.url⟩
      some (some entry,
        { s with
          entries := s.entries ++ [entry]
          nextPtr := s.nextPtr + 1
          enabled := Function.update s.enabled entry.ptr config.enabled
          refreshHours := Function.update s.refreshHours entry.ptr
            (config.refreshHours.getD 0)
          refreshLock := Function.update s.refreshLock entry.ptr none })
  | .removeEntries id =>
    some (s.entries.any (·.id == id), { s with entries := s.entries.filter (·.id != id) })
  | .isEnabled entry => some (s.enabled entry.ptr, s)
  | .swapEnabled entry enabled =>
    some (s.enabled entry.ptr, { s with enabled := Function.update s.enabled entry.ptr enabled })
  | .refreshHours entry => some (s.refreshHours entry.ptr, s)
  | .storeRefreshHours entry hours =>
    some ((), { s with refreshHours := Function.update s.refreshHours entry.ptr hours })
  | .defaultRefreshHours => some (s.defaultRefreshHours, s)
  | .lockRefresh entry =>
    (acquire (s.refreshLock entry.ptr) i).map fun holder =>
      ((), { s with refreshLock := Function.update s.refreshLock entry.ptr holder })
  | .unlockRefresh entry =>
    some ((), { s with refreshLock := Function.update s.refreshLock entry.ptr none })
  | .lockCompile =>
    (acquire s.compileLock i).map fun holder => ((), { s with compileLock := holder })
  | .unlockCompile => some ((), { s with compileLock := none })
  | .now =>
    match x with
    | .at time => some (time, s)
    | _ => none
  | .lastAttempt id => some (s.lastAttempted id, s)
  | .noteAttempt id =>
    match x with
    | .at time => some ((), { s with lastAttempted := Function.update s.lastAttempted id time })
    | _ => none
  | .forgetAttempt id =>
    some ((), { s with lastAttempted := Function.update s.lastAttempted id none })
  | .status id => some (s.status id, s)
  | .resetStatus id =>
    some ((), { s with status := Function.update s.status id (some .default) })
  | .removeStatus id => some ((), { s with status := Function.update s.status id none })
  | .recordStatus id result refreshedNow =>
    match s.status id, x with
    | none, _ => some ((), s)
    | some known, .at time =>
      some ((),
        { s with
          status := Function.update s.status id
            (some { known with
              lastResult := result
              lastRefreshed := if refreshedNow then some time else known.lastRefreshed }) })
    | some _, _ => none
  | .publishCounts stats => some ((), { s with status := s.publish stats })
  | .seedRefreshed id time =>
    let known := (s.status id).getD .default
    some ((),
      { s with
        status := Function.update s.status id
          (some { known with lastRefreshed := known.lastRefreshed.or (some time) }) })
  | .seedAttempt id time =>
    some ((), { s with lastAttempted := Function.update s.lastAttempted id (some time) })
  | .fillResults stats => some ((), { s with status := s.fill stats })
  | .pending id => some (s.pending id, s)
  | .insertPending id text =>
    some ((), { s with pending := Function.update s.pending id (some text) })
  | .removePending id => some ((), { s with pending := Function.update s.pending id none })
  | .readRaw id => some (s.raw id, s)
  | .writeRaw id text =>
    match x with
    | .fails _ _ => some (false, s)
    | _ => some (true, { s with raw := Function.update s.raw id (some text) })
  | .removeRaw id =>
    match x with
    | .fails causes _ => some (.error causes, s)
    | _ => some (.ok (), { s with raw := Function.update s.raw id none })
  | .rawAge id =>
    match x with
    | .aged age => some (if (s.raw id).isSome then age else none, s)
    | _ => none
  | .listing =>
    match x with
    | .listed files => some (files, s)
    | _ => none
  | .readValidators id => some (s.storedValidators id, s)
  | .writeValidators id validators =>
    match x with
    | .fails _ none => some ((), s)
    | .fails _ (some kept) =>
      some ((),
        { s with
          validators := Function.update s.validators id (some (validators.text.take kept)) })
    | _ =>
      some ((), { s with validators := Function.update s.validators id (some validators.text) })
  | .removeValidators id =>
    match x with
    | .fails _ _ => some ((), s)
    | _ => some ((), { s with validators := Function.update s.validators id none })
  | .fetch entry _ =>
    match x with
    | .fetched outcome =>
      if answers (.fromUrl entry.url) outcome then some (outcome, s) else none
    | _ => none
  | .loadPolicies => some (s.policies, s)
  | .storePolicies policies => some ((), { s with policies := policies })
  | .storeMatcher matcher => some ((), { s with matcher := matcher })

def machine : Machine Access Manager Choice where
  run := Access.run

/-- The parts of the shared state that accesses change. -/
inductive Cell where
  | entries
  | enabled
  | refreshHours
  | refreshLock
  | compileLock
  | lastAttempted (id : Bytes)
  | status (id : Bytes)
  | pending (id : Bytes)
  | raw (id : Bytes)
  | validators (id : Bytes)
  | policies
  | matcher
  deriving DecidableEq

/-- Which parts an access may change. -/
def Access.touches {β : Type} : Access β → Cell → Prop
  | .addEntry _, cell =>
    cell = .entries ∨ cell = .enabled ∨ cell = .refreshHours ∨ cell = .refreshLock
  | .removeEntries _, cell => cell = .entries
  | .swapEnabled _ _, cell => cell = .enabled
  | .storeRefreshHours _ _, cell => cell = .refreshHours
  | .lockRefresh _, cell => cell = .refreshLock
  | .unlockRefresh _, cell => cell = .refreshLock
  | .lockCompile, cell => cell = .compileLock
  | .unlockCompile, cell => cell = .compileLock
  | .noteAttempt id, cell => cell = .lastAttempted id
  | .forgetAttempt id, cell => cell = .lastAttempted id
  | .seedAttempt id _, cell => cell = .lastAttempted id
  | .resetStatus id, cell => cell = .status id
  | .removeStatus id, cell => cell = .status id
  | .recordStatus id _ _, cell => cell = .status id
  | .seedRefreshed id _, cell => cell = .status id
  | .publishCounts _, cell => ∃ id, cell = .status id
  | .fillResults _, cell => ∃ id, cell = .status id
  | .insertPending id _, cell => cell = .pending id
  | .removePending id, cell => cell = .pending id
  | .writeRaw id _, cell => cell = .raw id
  | .removeRaw id, cell => cell = .raw id
  | .writeValidators id _, cell => cell = .validators id
  | .removeValidators id, cell => cell = .validators id
  | .storePolicies _, cell => cell = .policies
  | .storeMatcher _, cell => cell = .matcher
  | _, _ => False

/-- Everything but the touched parts is as it was. -/
structure Frame (touched : Cell → Prop) (s t : Manager) : Prop where
  entries : ¬ touched .entries → t.entries = s.entries
  enabled : ¬ touched .enabled → t.enabled = s.enabled
  refreshHours : ¬ touched .refreshHours → t.refreshHours = s.refreshHours
  refreshLock : ¬ touched .refreshLock → t.refreshLock = s.refreshLock
  compileLock : ¬ touched .compileLock → t.compileLock = s.compileLock
  lastAttempted : ∀ id, ¬ touched (.lastAttempted id) → t.lastAttempted id = s.lastAttempted id
  status : ∀ id, ¬ touched (.status id) → t.status id = s.status id
  pending : ∀ id, ¬ touched (.pending id) → t.pending id = s.pending id
  raw : ∀ id, ¬ touched (.raw id) → t.raw id = s.raw id
  validators : ∀ id, ¬ touched (.validators id) → t.validators id = s.validators id
  policies : ¬ touched .policies → t.policies = s.policies
  matcher : ¬ touched .matcher → t.matcher = s.matcher

lemma Frame.refl (touched : Cell → Prop) (s : Manager) : Frame touched s s := by
  constructor <;> intros <;> rfl

/-- **What an access leaves alone.** -/
theorem Access.frame {β : Type} {op : Access β} {i : Nat} {x : Choice} {s t : Manager} {b : β}
    (hrun : op.run i x s = some (b, t)) : Frame op.touches s t := by
  cases op <;> simp only [Access.run, Option.map_eq_some_iff] at hrun
  -- a lock is taken or the thread waits; else the access has one outcome for each choice
  case lockRefresh | lockCompile =>
    obtain ⟨holder, -, heq⟩ := hrun
    cases heq
    constructor <;> intros <;> first | rfl | exact absurd rfl ‹_›
  case addEntry =>
    split at hrun <;> cases hrun
    · exact .refl _ _
    · constructor <;> intros <;> first | rfl | simp_all [Access.touches]
  all_goals
    repeat' split at hrun
    all_goals
      cases hrun <;> constructor <;> intros <;> first
        | rfl
        | exact absurd rfl ‹_›
        | (rename_i h
           exact Function.update_of_ne (fun heq => h (congrArg _ heq)) _ _)
        | (rename_i h
           exact absurd ⟨_, rfl⟩ h)

lemma frame_of_run (hrun : machine.run op i x s = some (b, t)) : Frame op.touches s t :=
  Access.frame (i := i) (x := x) hrun

end FastAdHunter.Rules.Lifecycle
