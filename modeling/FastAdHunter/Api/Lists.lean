import FastAdHunter.Rules.Lifecycle.UserRules

/-!
# Lists from outside

A list is created by a request that names a source, a URL or a path inside the data
directory, and possibly an id; else the id is derived from the source. An id
becomes a file name, so its alphabet is checked. That it is not the id of the user
rules is not.
-/

namespace FastAdHunter.Api

open Lib
open Rules.Lifecycle

/-- A piece of a message: as it stands, or quoted and escaped. -/
inductive Piece where
  | text (s : Bytes)
  | debug (s : Bytes)
  deriving DecidableEq

/-- The errors that the handlers answer with. -/
inductive ApiError where
  | badRequest (message : List Piece)
  | notFound (message : List Piece)
  | validationFailed (message : List Piece)
  | conflict (message : List Piece)
  | internal (message : List Piece)
  deriving DecidableEq

def Piece.lit (s : String) : Piece :=
  .text (Lib.lit s)

/-- Drop every leading occurrence of a text, at most so many. -/
def trimStartText (p : Bytes) : Nat → Bytes → Bytes
  | 0, s => s
  | n + 1, s =>
    match stripPrefix p s with
    | some rest => trimStartText p n rest
    | none => s

/-- The id that a source gives itself: its file stem, else its host. -/
def deriveId (source : Bytes) : Bytes :=
  let trimmed := trimEndMatches (ch '/') source
  let tail := (splitBy (· == ch '/') trimmed).getLastD trimmed
  let stem := (splitBy (· == ch '?') tail).headD tail
  let stem := (stripSuffix (lit ".txt") stem).getD stem
  if stem.isEmpty || stem.contains (ch ':') then
    let host := trimStartText (lit "https://") trimmed.length trimmed
    let host := trimStartText (lit "http://") host.length host
    lower (trimEndMatches (ch '/') host)
  else lower stem

def isIdByte (b : UInt8) : Bool :=
  isAsciiLowercase b || isAsciiDigit b || b == ch '.' || b == ch '_' || b == ch '-'

def validateListId (id : Bytes) : Except ApiError Unit :=
  if id.all isIdByte && !startsWith (lit ".") id then .ok ()
  else
    .error (.validationFailed [.lit "invalid list id ", .debug id,
      .lit ": use lowercase letters, digits, '.', '_' or '-', and do not start with '.'"])

/-- The components of a path, with repeated separators and inner dots left out. -/
inductive Component where
  | rootDir
  | curDir
  | parentDir
  | normal (name : Bytes)
  deriving DecidableEq

def component (part : Bytes) : Option Component :=
  if part = [] ∨ part = lit "." then none
  else if part = lit ".." then some .parentDir
  else some (.normal part)

def components (path : Bytes) : List Component :=
  match splitBy (· == ch '/') path with
  | [] => []
  | first :: rest =>
    let start : List Component :=
      if first = [] ∧ rest ≠ [] then [.rootDir]
      else if first = lit "." then [.curDir]
      else (component first).toList
    start ++ rest.filterMap component

def staysInside (dataDir path : Bytes) : Bool :=
  let candidate := components path
  !(candidate.contains .parentDir ||
    (candidate.contains .rootDir && !(components dataDir).isPrefixOf candidate))

section Creating

structure CreateListRequest where
  url : Option Bytes
  path : Option Bytes
  id : Option Bytes
  enabled : Bool
  refreshHours : Option Nat
  deriving DecidableEq

def CreateListRequest.source (request : CreateListRequest) : Except ApiError Bytes :=
  match request.url, request.path with
  | some url, none => .ok url
  | none, some path => .ok path
  | some _, some _ => .error (.validationFailed [.lit "provide either url or path, not both"])
  | none, none => .error (.validationFailed [.lit "one of url or path is required"])

/-- The list that a request asks for, when the request is in order. -/
def CreateListRequest.config (dataDir : Bytes) (request : CreateListRequest) :
    Except ApiError RuleListConfig := do
  let source ← request.source
  if request.path.any fun path => !staysInside dataDir path then
    throw (.validationFailed
      [.lit "path must stay inside the data dir and must not contain '..'"])
  let id := request.id.getD (deriveId source)
  if id.isEmpty then
    throw (.validationFailed [.lit "could not derive a list id; provide one explicitly"])
  validateListId id
  pure ⟨id, source, request.enabled, request.refreshHours⟩

/-- The list that is created beside those that are configured. -/
def newList (dataDir : Bytes) (current : List RuleListConfig) (request : CreateListRequest) :
    Except ApiError RuleListConfig := do
  let config ← request.config dataDir
  if current.any (·.id == config.id) then
    let hint := if request.id.isNone then
      " — id was derived from the source; pass an explicit \x60id\x60 to disambiguate" else ""
    throw (.conflict [.lit "list ", .text config.id, .lit " already exists", .lit hint])
  match current.find? (·.url == config.url) with
  | some existing =>
    throw (.conflict [.text config.url, .lit " is already configured as list ",
      .text existing.id])
  | none => pure config

variable {dataDir : Bytes} {current : List RuleListConfig} {request : CreateListRequest}
variable {config : RuleListConfig}

end Creating

/-- A list under the id of the user rules. -/
def ownList : CreateListRequest :=
  ⟨some (lit "https://lists.example/mine.txt"), none, some userRulesId, true, none⟩

def withUserRules : Manager :=
  { emptyManager with
    raw := Function.update emptyManager.raw userRulesId (some (lit "||mine.example^")) }

/-- **A list replaces the user's own rules**: a request may name their id, and the
refresh of the list that is created writes its body where they are stored. -/
theorem list_overwrites_user_rules :
    ∃ config labels c, newList (lit "/data") [] ownList = .ok config ∧
      Pool.Run machine (together withUserRules [.addList config, .refreshList config.id]) labels c ∧
      ∃ l ∈ labels, l.thread = 1 ∧ ¬ Untouched l.before l.after := by
  let config : RuleListConfig :=
    ⟨userRulesId, lit "https://lists.example/mine.txt", true, none⟩
  obtain ⟨⟨labels, c⟩, hexec, hchanged⟩ := (Option.any_eq_true _ _).mp
    (show (Pool.exec machine (together withUserRules [.addList config, .refreshList config.id])
      (turns [(0, 2), (1, 6)] ++ [(1, answered (lit "||ads.example^"))] ++ turns [(1, 6)])).any
      (fun r => r.1.any fun l => decide (l.thread = 1) &&
        decide (l.after.raw userRulesId ≠ l.before.raw userRulesId)) = true by decide +kernel)
  obtain ⟨l, hl, hstep⟩ := List.any_eq_true.mp hchanged
  obtain ⟨hthread, hraw⟩ := Bool.and_eq_true_iff.mp hstep
  refine ⟨config, labels, c, by decide +kernel, Pool.run_of_exec hexec, l, hl,
    of_decide_eq_true hthread, fun huntouched => ?_⟩
  exact of_decide_eq_true hraw huntouched.raw

end FastAdHunter.Api
