import FastAdHunter.Lib.Runs
import FastAdHunter.Rules.UrlTier.Basic

/-!
# The compiled URL index

Filing the rules under their rarest keys, the packed layout, and the lookup
that reaches them again from the request's URL.
-/

namespace FastAdHunter.Rules.Url

open Lib Net Probing

/-- A filed rule: whether its key is a window, the key's hash, the record. -/
abbrev Filed := Bool × UInt64 × Nat

/-- The better of two keys: the rarer one, then the one from the longer
text. -/
def pickRarest {κ : Type} (count : κ → Nat) (best : Option (Nat × Nat × κ))
    (key : κ × Nat) : Option (Nat × Nat × κ) :=
  match best with
  | none => some (count key.1, key.2, key.1)
  | some (bestCount, bestLen, bestKey) =>
    if count key.1 < bestCount ∨ (count key.1 = bestCount ∧ bestLen < key.2) then
      some (count key.1, key.2, key.1)
    else some (bestCount, bestLen, bestKey)

def rarest {κ : Type} (count : κ → Nat) (keys : List (κ × Nat)) : Option κ :=
  (keys.foldl (pickRarest count) none).map fun best => best.2.2

namespace UrlIndexBuilder

def boundedKeys (b : UrlIndexBuilder) (r : Record) : List (UInt64 × Nat) :=
  (indexKeys (b.patternOf r) r.anchor r.endAnchored).map fun key =>
    (hashKey key.1 key.2.1, key.2.2)

def windowKeys (b : UrlIndexBuilder) (r : Record) : List (UInt32 × Nat) :=
  ngramKeys (b.patternOf r)

/-- How common each bounded key is among all records. -/
def frequency (b : UrlIndexBuilder) (hash : UInt64) : Nat :=
  ((b.records.flatMap b.boundedKeys).map Prod.fst).count hash

/-- The bounded key each record is filed under, if it has one. -/
def boundedFiling (b : UrlIndexBuilder) : List (Nat × Option UInt64) :=
  b.records.zipIdx.map fun entry => (entry.2, rarest b.frequency (b.boundedKeys entry.1))

/-- The records that need the window tier. -/
def needsNgram (b : UrlIndexBuilder) : List Nat :=
  b.boundedFiling.filterMap fun entry => if entry.2.isNone then some entry.1 else none

def windowKeysAt (b : UrlIndexBuilder) (index : Nat) : List (UInt32 × Nat) :=
  (b.records[index]?).elim [] b.windowKeys

/-- How common each window is among the records that got this far. -/
def ngramFrequency (b : UrlIndexBuilder) (word : UInt32) : Nat :=
  ((b.needsNgram.flatMap b.windowKeysAt).map Prod.fst).count word

def ngramFiling (b : UrlIndexBuilder) : List (Nat × Option UInt32) :=
  b.needsNgram.map fun index => (index, rarest b.ngramFrequency (b.windowKeysAt index))

/-- Every filed rule, before sorting. -/
def filedUnsorted (b : UrlIndexBuilder) : List Filed :=
  (b.boundedFiling.filterMap fun entry => entry.2.map fun hash => (false, hash, entry.1)) ++
    b.ngramFiling.filterMap fun entry =>
      entry.2.map fun word => (true, ngramHash word, entry.1)

/-- The window behind each window key. -/
def ngramWordOf (b : UrlIndexBuilder) : List (UInt64 × UInt32) :=
  b.ngramFiling.filterMap fun entry => entry.2.map fun word => (ngramHash word, word)

/-- The records no key can file. -/
def unfiled (b : UrlIndexBuilder) : List Nat :=
  b.ngramFiling.filterMap fun entry => if entry.2.isNone then some entry.1 else none

end UrlIndexBuilder

/-- Bounded keys first, then by hash, then by record. -/
def filedLe (a b : Filed) : Prop :=
  a.1 < b.1 ∨ (a.1 = b.1 ∧
    (a.2.1 < b.2.1 ∨ (a.2.1 = b.2.1 ∧ a.2.2 ≤ b.2.2)))

instance : DecidableRel filedLe := fun a b => by
  unfold filedLe
  infer_instance

def ngramBucketCap : Nat := 1024

/-- How many filed windows are kept: the cut is at the key past the visited
set's width. -/
def keptWindows : List Filed → Nat → Option UInt64 → Nat
  | [], _, _ => 0
  | (_, hash, _) :: rest, distinct, previous =>
    if previous = some hash then keptWindows rest distinct previous + 1
    else if distinct = ngramBucketCap then 0
    else keptWindows rest (distinct + 1) (some hash) + 1

/-- One run of rules for each key, and the first key of the window tier. -/
structure Buckets where
  runs : Runs UInt64 Nat
  ngramStart : Option Nat
  deriving DecidableEq

def Buckets.empty : Buckets := ⟨.empty, none⟩

/-- File one more rule into the layout. -/
def Buckets.push (l : Buckets) (entry : Filed) : Buckets where
  runs := l.runs.push entry.2
  ngramStart :=
    if l.runs.keys.getLast? ≠ some entry.2.1 ∧ entry.1 ∧ l.ngramStart.isNone then
      some l.runs.keys.length
    else l.ngramStart

def bucketsOf (l : List Filed) : Buckets :=
  l.foldl Buckets.push .empty

/-- Smallest power of two that is not below `n`. -/
def nextPowerOfTwo (n : Nat) : Nat :=
  (((List.range 64).map (2 ^ ·)).find? (n ≤ ·)).getD (2 ^ 63)

/-- The filter over the window keys. -/
def buildBits (wordOf : List (UInt64 × UInt32)) (hashes : List UInt64) : List UInt64 :=
  if hashes.isEmpty then []
  else
    let size := max (nextPowerOfTwo hashes.length) 8
    let index hash := (wordOf.lookup hash).map fun word => ngramFold word &&& (size * 64 - 1)
    hashes.foldl (fun bits hash => (index hash).elim bits (Bitmap.set bits))
      (List.replicate size 0)

/-- The compiled URL tier. An empty policy mask means that every rule is
visible to every policy. -/
structure UrlIndex where
  patterns : Bytes
  domains : Bytes
  records : List Record
  listIds : List Nat
  policyMask : List UInt16
  methods : List (Nat × Bytes)
  clients : List (Nat × ClientScope)
  namedClientScopes : Bool
  slots : List Nat
  bucketHash : List UInt64
  bucketStart : List Nat
  bucketRules : List Nat
  ngramBucketStart : Nat
  ngramBits : List UInt64
  unindexed : List Nat
  duplicatesRemoved : Nat

/-- The filed rules in their final order, and how many of them are kept. -/
def UrlIndexBuilder.filed (b : UrlIndexBuilder) : List Filed :=
  b.filedUnsorted.insertionSort filedLe

def UrlIndexBuilder.kept (b : UrlIndexBuilder) : Nat :=
  let firstNgram := (b.filed.takeWhile fun entry => !entry.1).length
  firstNgram + keptWindows (b.filed.drop firstNgram) 0 none

/-- The buckets of the kept rules. -/
def UrlIndexBuilder.layout (b : UrlIndexBuilder) : Buckets :=
  bucketsOf (b.filed.take b.kept)

def UrlIndexBuilder.compiled (b : UrlIndexBuilder) (full : UInt16) (slots : List Nat) :
    UrlIndex :=
  let runs := b.layout.runs
  let ngramBucketStart := min (b.layout.ngramStart.getD runs.keys.length) runs.keys.length
  let demoted := (b.filed.drop b.kept).map fun entry => entry.2.2
  { patterns := b.patterns
    domains := b.domains
    records := b.records
    listIds := b.listIds
    policyMask := if b.policyMask.all (· == full) then [] else b.policyMask
    methods := b.methods
    clients := b.clients
    namedClientScopes := b.namedClientScopes
    slots := slots
    bucketHash := runs.keys
    bucketStart := runs.starts ++ [runs.items.length]
    bucketRules := runs.items
    ngramBucketStart := ngramBucketStart
    ngramBits := buildBits b.ngramWordOf (runs.keys.drop ngramBucketStart)
    unindexed := (b.unfiled ++ demoted).insertionSort (· ≤ ·)
    duplicatesRemoved := b.duplicatesRemoved }

def UrlIndexBuilder.build (b : UrlIndexBuilder) (full : UInt16) : Option UrlIndex := do
  let hashes := b.layout.runs.keys
  let slotCap := max (hashes.length * 10 / 7) 8
  let slots ← hashes.zipIdx.foldlM
    (fun t entry => place emptySlot t (fastrange entry.1 slotCap) entry.2)
    (List.replicate slotCap emptySlot)
  return b.compiled full slots

/-- What one lookup derives from the request once. -/
structure Probe where
  request : HttpRequest
  hostStart : Nat
  hostEnd : Nat
  typeBit : UInt16
  thirdParty : Bool
  ctx : ClientContext

def Probe.new (request : HttpRequest) (ctx : ClientContext) : Probe where
  request := request
  hostStart := (hostSpan request.url).1
  hostEnd := (hostSpan request.url).2
  typeBit := bitForRequest request.resourceType
  thirdParty := isThirdParty request
  ctx := ctx

namespace UrlIndex

def patternOf (m : UrlIndex) (r : Record) : Bytes :=
  (m.patterns.drop r.patOff).take r.patLen

def domainsOf (m : UrlIndex) (r : Record) : Bytes :=
  (m.domains.drop r.domOff).take r.domLen

/-- The tests that need no look at the URL, cheapest first. A type the proxy
could not determine fails a block and passes an exception. -/
def admits (m : UrlIndex) (index : Nat) (r : Record) (probe : Probe) : Bool :=
  let visible :=
    m.policyMask.isEmpty || m.policyMask.getD index 0 &&& probe.ctx.policyBit != 0
  let client := !r.hasClient ||
    (m.clients.lookup index).any (·.admits probe.ctx.ip probe.ctx.name)
  let typed := r.types == 0 || r.types &&& probe.typeBit != 0 ||
    (probe.typeBit == 0 && r.isAllow)
  let party :=
    match r.party with
    | .third => probe.thirdParty
    | .first => !probe.thirdParty
    | .any => true
  let method := !r.hasMethods ||
    methodsApply ((m.methods.lookup index).getD []) probe.request.method
  let document := r.domLen == 0 ||
    domainsApply (m.domainsOf r) probe.request.documentHost
  visible && client && typed && party && method && document

/-- The pattern part of a check, under the rule's own allowance. -/
def checkPattern (m : UrlIndex) (r : Record) (probe : Probe) (budget : Budget) :
    Bool × Budget :=
  matchPattern r.anchor (m.patternOf r) probe.request.url probe.hostStart probe.hostEnd
    r.endAnchored r.matchCase (budget.openRule probe.request.url.length)

/-- Whether a rule applies to the request: its action, or `none`. -/
def check (m : UrlIndex) (index : Nat) (probe : Probe) (budget : Budget) :
    Option Bool × Budget :=
  match m.records[index]? with
  | none => (none, budget)
  | some r =>
    if m.admits index r probe then
      let (matched, budget) := m.checkPattern r probe budget
      (if matched then some r.isAllow else none, budget)
    else (none, budget)

end UrlIndex

/-- A lookup in progress: the first block so far, and the allowance. -/
structure Scan where
  blocked : Option Nat
  budget : Budget
  deriving DecidableEq

/-- A lookup that has found an allow stops there. -/
abbrev ScanResult := Except (Nat × Budget) Scan

def seenWords : Nat := 16

/-- Claim a window bucket for this lookup; `none` when it was claimed before.
A bucket outside the set is never held back. -/
def visitOnce (seen : List UInt64) (bucket ngramStart : Nat) : Option (List UInt64) :=
  if bucket < ngramStart then some seen
  else if seenWords * 64 ≤ bucket - ngramStart then some seen
  else if Bitmap.test seen (bucket - ngramStart) then none
  else some (Bitmap.set seen (bucket - ngramStart))

namespace UrlIndex

variable (m : UrlIndex) (probe : Probe)

/-- Check one rule and fold the outcome into the scan. -/
def visitRule (st : Scan) (index : Nat) : ScanResult :=
  match m.check index probe st.budget with
  | (some true, budget) => .error (index, budget)
  | (some false, budget) => .ok ⟨st.blocked.or (some index), budget⟩
  | (none, budget) => .ok ⟨st.blocked, budget⟩

def bucketSlice (bucket : Nat) : List Nat :=
  Runs.slice m.bucketStart m.bucketRules bucket

def checkBucket (bucket : Nat) (st : Scan) : ScanResult :=
  (m.bucketSlice bucket).foldlM (m.visitRule probe) st

/-- Find the bucket of a key. -/
def bucketOf (hash : UInt64) : Option Nat :=
  if m.bucketHash.isEmpty then none
  else
    let visit (_ : Unit) (bucket : Nat) : Except Nat Unit :=
      if m.bucketHash[bucket]? == some hash then .error bucket else .ok ()
    match probeLoop emptySlot m.slots visit m.slots.length
        (fastrange hash m.slots.length) () with
    | some (.error bucket) => some bucket
    | _ => none

/-- Probe the table for one key of a URL token. -/
def probeKey (st : Scan) (key : KeyKind × Bytes) : ScanResult :=
  match m.bucketOf (hashKey key.1 key.2) with
  | none => .ok st
  | some bucket => m.checkBucket probe bucket st

def probeToken (st : Scan) (token : Token) : ScanResult :=
  if token.text.length < minTokenLen then .ok st
  else (probeKeys token.text).foldlM (m.probeKey probe) st

def ngramMayHold (word : UInt32) : Bool :=
  Bitmap.test m.ngramBits (ngramFold word &&& (m.ngramBits.length * 64 - 1))

/-- The sweep of windows along the rest of the URL. -/
def sweep : Bytes → UInt32 → List UInt64 → Scan → ScanResult
  | [], _, _, st => .ok st
  | b :: rest, word, seen, st =>
    let word := rollWord word b
    if m.ngramMayHold word then
      match m.bucketOf (ngramHash word) with
      | none => sweep rest word seen st
      | some bucket =>
        match visitOnce seen bucket m.ngramBucketStart with
        | none => sweep rest word seen st
        | some seen => do
            let st ← m.checkBucket probe bucket st
            sweep rest word seen st
    else sweep rest word seen st

/-- The three phases of a lookup: the unindexed rules, the URL's tokens, its
windows. -/
def scan (st : Scan) : ScanResult := do
  let url := probe.request.url
  let st ← m.unindexed.foldlM (m.visitRule probe) st
  let st ← (tokens url).foldlM (m.probeToken probe) st
  if m.ngramBits.isEmpty || decide (url.length < minTokenLen) then .ok st
  else
    m.sweep probe (url.drop (minTokenLen - 1)) (ngramWord (url.take (minTokenLen - 1)))
      (List.replicate seenWords 0) st

end UrlIndex

/-- The verdict for one request, with the allowance that is left. -/
def UrlIndex.lookup (m : UrlIndex) (request : HttpRequest) (ctx : ClientContext) :
    TierDecision × Budget :=
  match m.scan (Probe.new request ctx) ⟨none, .new⟩ with
  | .error (index, budget) => (.allow index, budget)
  | .ok st =>
    (match st.blocked with
      | some index => .block index
      | none => .pass, st.budget)

end FastAdHunter.Rules.Url
