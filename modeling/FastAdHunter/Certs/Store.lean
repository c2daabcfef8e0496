import FastAdHunter.Certs.Leaf
import FastAdHunter.Lib.Interference

/-!
# The store of certificates

The authority is in a slot behind a lock, its pair on the disk. A pair is replaced
in steps: the new texts are staged beside the old ones, the old ones are copied to
an archive, and the staged files are renamed into place, the certificate first.
Every operation on a file is done whole or not at all and may fail, and the process
may stop anywhere. A pre-warm reads the authority together with the epoch of the
leaf cache, mints outside of all locks, and stores the leaf if the epoch is still
the same.
-/

namespace FastAdHunter.Certs

open Lib

inductive CreateDir where
  | created
  | alreadyExists
  | failed (source : Bytes)

/-- The atomic accesses: operations on files and directories, the locks, the slot
of the authority, and operations on the leaf cache under its own lock. -/
inductive CertAccess : Type → Type where
  | «exists» (path : CertPath) : CertAccess Bool
  | read (path : CertPath) : CertAccess (Except Bytes Bytes)
  | ensureParent (path : CertPath) : CertAccess (Except Bytes Unit)
  | write (path : CertPath) (text : Bytes) : CertAccess (Except Bytes Unit)
  | rename (source target : CertPath) : CertAccess (Except Bytes Unit)
  | copy (source target : CertPath) : CertAccess (Except Bytes Unit)
  | discard (path : CertPath) : CertAccess Unit
  | restrict (path : CertPath) : CertAccess (Except Bytes Unit)
  | createArchives (pair : Pair) : CertAccess (Except Bytes Unit)
  | countArchives (pair : Pair) : CertAccess (Except Bytes Nat)
  | createArchive (pair : Pair) (name : ArchiveName) : CertAccess CreateDir
  | removeArchive (pair : Pair) (name : ArchiveName) : CertAccess Unit
  | lock (pair : Pair) : CertAccess Unit
  | unlock (pair : Pair) : CertAccess Unit
  | readSlot : CertAccess (Option CaHandle)
  | setSlot (handle : CaHandle) : CertAccess Unit
  | setImported : CertAccess Unit
  | clearLeaves : CertAccess Unit
  | readEpoch : CertAccess Nat
  | cachedLeaf (host : Bytes) (now : Int) : CertAccess (Option Leaf)
  | lease (host : Bytes) (now : Int) : CertAccess Lease
  | mint (ca : CaHandle) (host : Bytes) : CertAccess (Except CertError Leaf)
  | storeMinted (host : Bytes) (epoch : Nat) (key : Leaf) : CertAccess Bool
  | release (host : Bytes) : CertAccess Unit
  | now : CertAccess Int
  | goOn : CertAccess Empty

/-- The files and the archives, the locks of the two pairs, the slot of the
authority, where the pair of the server comes from, and the leaf cache. -/
structure CertState where
  files : CertPath → Option Bytes
  archives : Pair → List ArchiveName
  locks : Pair → Option Nat
  slot : Option CaHandle
  imported : Bool
  leaves : LeafCache

/-- What the environment chooses: whether an operation fails, the time, and the key
of a new leaf. -/
structure Chance where
  fails : Option Bytes
  time : Int
  key : Bytes

/-- An operation that may fail, and then has done nothing. -/
def attempt {α : Type} (x : Chance) (a : α) (s t : CertState) :
    Option (Except Bytes α × CertState) :=
  match x.fails with
  | some error => some (.error error, s)
  | none => some (.ok a, t)

def notFound : Bytes := lit "No such file or directory (os error 2)"

def CertState.setFile (s : CertState) (path : CertPath) (contents : Option Bytes) : CertState :=
  { s with files := Function.update s.files path contents }

def CertState.setLeaves (s : CertState) (leaves : LeafCache) : CertState := { s with leaves := leaves }

def CertState.setLock (s : CertState) (pair : Pair) (holder : Option Nat) : CertState :=
  { s with locks := Function.update s.locks pair holder }

/-- Without the files of an archive. -/
def CertState.dropArchive (s : CertState) (pair : Pair) (name : ArchiveName) : CertState where
  files
    | .archived pair' name' file =>
      if pair' = pair ∧ name' = name then none else s.files (.archived pair' name' file)
    | path => s.files path
  archives := Function.update s.archives pair ((s.archives pair).erase name)
  locks := s.locks
  slot := s.slot
  imported := s.imported
  leaves := s.leaves

def CertState.addArchive (s : CertState) (pair : Pair) (name : ArchiveName) : CertState :=
  { s with archives := Function.update s.archives pair (name :: s.archives pair) }

def serve {β : Type} (access : CertAccess β) (i : Nat) (x : Chance) (s : CertState) :
    Option (β × CertState) :=
  match access with
  | .exists path => some ((s.files path).isSome, s)
  | .read path =>
    match s.files path with
    | some text => attempt x text s s
    | none => some (.error notFound, s)
  | .ensureParent _ => attempt x () s s
  | .write path text => attempt x () s (s.setFile path (some text))
  | .rename source target =>
    match s.files source with
    | some text => attempt x () s ((s.setFile target (some text)).setFile source none)
    | none => some (.error notFound, s)
  | .copy source target =>
    match s.files source with
    | some text => attempt x () s (s.setFile target (some text))
    | none => some (.error notFound, s)
  | .discard path => if x.fails.isSome then some ((), s) else some ((), s.setFile path none)
  | .restrict _ => attempt x () s s
  | .createArchives _ => attempt x () s s
  | .countArchives pair => attempt x (s.archives pair).length s s
  | .createArchive pair name =>
    if name ∈ s.archives pair then some (.alreadyExists, s)
    else match x.fails with
      | some error => some (.failed error, s)
      | none => some (.created, s.addArchive pair name)
  | .removeArchive pair name =>
    if x.fails.isSome then some ((), s) else some ((), s.dropArchive pair name)
  | .lock pair => if (s.locks pair).isNone then some ((), s.setLock pair (some i)) else none
  | .unlock pair => some ((), s.setLock pair none)
  | .readSlot => some (s.slot, s)
  | .setSlot handle => some ((), { s with slot := some handle })
  | .setImported => some ((), { s with imported := true })
  | .clearLeaves => some ((), s.setLeaves s.leaves.clear)
  | .readEpoch => some (s.leaves.epoch, s)
  | .cachedLeaf host now =>
    some ((s.leaves.cached host now).1, s.setLeaves (s.leaves.cached host now).2)
  | .lease host now =>
    some ((s.leaves.lease host now).1, s.setLeaves (s.leaves.lease host now).2)
  | .mint ca host =>
    match x.fails with
    | some error => some (.error (.generate error), s)
    | none => some (.ok ⟨ca, host, leafNotAfter ca x.time, x.key⟩, s)
  | .storeMinted host epoch key =>
    some ((s.leaves.storeMinted leafCacheCapacity host epoch key key.notAfter).1,
      s.setLeaves (s.leaves.storeMinted leafCacheCapacity host epoch key key.notAfter).2)
  | .release host => some ((), s.setLeaves (s.leaves.release host))
  | .now => some (x.time, s)
  | .goOn => none

def machine : Machine CertAccess CertState Chance where
  run access i x s := serve access i x s

section Files

variable {Op : Type → Type} {ε α β : Type}

/-- Go on with what was achieved, or leave with the error. -/
def andThen (p : Prog Op (Except ε α)) (k : α → Prog Op (Except ε β)) : Prog Op (Except ε β) := do
  match ← p with
  | .error error => pure (.error error)
  | .ok a => k a

/-- An operation on a file; its error names the file. -/
def onPath (path : CertPath) (access : CertAccess (Except Bytes α)) :
    Prog CertAccess (Except CertError α) := do
  match ← access with
  | .error source => pure (.error (.io path source))
  | .ok a => pure (.ok a)

/-- The directory a file is in. -/
def CertPath.parent : CertPath → CertPath
  | .archived pair name _ => .archive pair name
  | .archive pair _ => .archives pair
  | _ => .configDir

def read (path : CertPath) : Prog CertAccess (Except CertError Bytes) :=
  onPath path (.read path)

def write (path : CertPath) (text : Bytes) : Prog CertAccess (Except CertError Unit) :=
  andThen (onPath path.parent (.ensureParent path)) fun _ => onPath path (.write path text)

def rename (source target : CertPath) : Prog CertAccess (Except CertError Unit) :=
  onPath target (.rename source target)

def copy (source target : CertPath) : Prog CertAccess (Except CertError Unit) :=
  onPath target (.copy source target)

/-- The certificate and the key of a pair are both there, or the first is and the
second only staged. -/
def interrupted (pair : Pair) : Prog CertAccess Bool := do
  if ← CertAccess.exists (.live pair .cert) then
    if ← CertAccess.exists (.live pair .key) then pure false
    else CertAccess.exists (.staged pair .key)
  else pure false

def completeInterrupted (pair : Pair) : Prog CertAccess (Except CertError Unit) := do
  if ← interrupted pair then rename (.staged pair .key) (.live pair .key)
  else pure (.ok ())

def readPair (pair : Pair) : Prog CertAccess (Except CertError (Option (Bytes × Bytes))) := do
  let certThere ← CertAccess.exists (.live pair .cert)
  let keyThere ← CertAccess.exists (.live pair .key)
  match certThere, keyThere with
  | true, true =>
    andThen (read (.live pair .cert)) fun cert =>
      andThen (read (.live pair .key)) fun key => pure (.ok (some (cert, key)))
  | true, false => pure (.error (.incompletePair (.live pair .cert) (.live pair .key)))
  | false, true => pure (.error (.incompletePair (.live pair .key) (.live pair .cert)))
  | false, false => pure (.ok none)

def loadPair (pair : Pair) : Prog CertAccess (Except CertError (Option (Bytes × Bytes))) :=
  andThen (completeInterrupted pair) fun _ => readPair pair

def discardStaged (pair : Pair) : Prog CertAccess Unit := do
  CertAccess.discard (.staged pair .cert)
  CertAccess.discard (.staged pair .key)

/-- On an error, the staged files go. -/
def orUnstage (pair : Pair) (p : Prog CertAccess (Except CertError α)) :
    Prog CertAccess (Except CertError α) := do
  match ← p with
  | .error error => do
    discardStaged pair
    pure (.error error)
  | .ok a => pure (.ok a)

def stagePair (pair : Pair) (certPem keyPem : Bytes) : Prog CertAccess (Except CertError Unit) := do
  CertAccess.discard (.staged pair .key)
  orUnstage pair (andThen (write (.staged pair .key) keyPem) fun _ =>
    write (.staged pair .cert) certPem)

/-- The key follows the certificate; if it cannot, the certificate goes. -/
def commitKey (pair : Pair) : Prog CertAccess (Except CertError Unit) := do
  match ← rename (.staged pair .key) (.live pair .key) with
  | .error error => do
    CertAccess.discard (.live pair .cert)
    CertAccess.discard (.staged pair .key)
    pure (.error error)
  | .ok () => pure (.ok ())

def commitPair (pair : Pair) : Prog CertAccess (Except CertError Unit) :=
  andThen (orUnstage pair (rename (.staged pair .cert) (.live pair .cert))) fun _ => commitKey pair

def writePair (pair : Pair) (certPem keyPem : Bytes) : Prog CertAccess (Except CertError Unit) :=
  andThen (stagePair pair certPem keyPem) fun _ => commitPair pair

end Files

def archiveAttempts : Nat := 1024

def maxArchives : Nat := 8

/-- Try the names of a second, one after the other. -/
def findArchive (pair : Pair) (stamp : Int) : Nat → Nat → Prog CertAccess (Except CertError ArchiveName)
  | 0, _ => pure (.error (.io (.archives pair) (lit "no unused archive directory for this second")))
  | left + 1, attempt => do
    match ← CertAccess.createArchive pair ⟨stamp, attempt⟩ with
    | .created => pure (.ok ⟨stamp, attempt⟩)
    | .alreadyExists => findArchive pair stamp left (attempt + 1)
    | .failed source => pure (.error (.io (.archive pair ⟨stamp, attempt⟩) source))

def unusedArchiveDir (pair : Pair) : Prog CertAccess (Except CertError ArchiveName) :=
  andThen (onPath (.archives pair) (.createArchives pair)) fun _ =>
    andThen (onPath (.archives pair) (.countArchives pair)) fun retired =>
      if maxArchives ≤ retired then pure (.error (.archiveFull pair maxArchives))
      else do
        let stamp ← CertAccess.now
        findArchive pair stamp archiveAttempts 0

def copyExisting (source target : CertPath) : Prog CertAccess (Except CertError Unit) := do
  if ← CertAccess.exists source then copy source target
  else pure (.ok ())

def restrictExisting (path : CertPath) : Prog CertAccess (Except CertError Unit) := do
  if ← CertAccess.exists path then onPath path (.restrict path)
  else pure (.ok ())

def fillArchive (pair : Pair) (name : ArchiveName) : Prog CertAccess (Except CertError Unit) :=
  andThen (copyExisting (.live pair .cert) (.archived pair name .cert)) fun _ =>
    andThen (copyExisting (.live pair .key) (.archived pair name .key)) fun _ =>
      restrictExisting (.archived pair name .key)

def archivePair (pair : Pair) : Prog CertAccess (Except CertError ArchiveName) :=
  andThen (unusedArchiveDir pair) fun name => do
    match ← fillArchive pair name with
    | .error error => do
      CertAccess.removeArchive pair name
      pure (.error error)
    | .ok () => pure (.ok name)

def anyExists (pair : Pair) : Prog CertAccess Bool := do
  if ← CertAccess.exists (.live pair .cert) then pure true
  else CertAccess.exists (.live pair .key)

/-- Archive what is there, if anything is. -/
def archiveExisting (pair : Pair) : Prog CertAccess (Except CertError (Option ArchiveName)) := do
  if ← anyExists pair then
    orUnstage pair (andThen (archivePair pair) fun name => pure (.ok (some name)))
  else pure (.ok none)

def restorePair (pair : Pair) (name : ArchiveName) : Prog CertAccess Unit := do
  discardStaged pair
  let _ ← copyExisting (.archived pair name .cert) (.live pair .cert)
  let _ ← copyExisting (.archived pair name .key) (.live pair .key)
  pure ()

def restoreFrom (pair : Pair) : Option ArchiveName → Prog CertAccess Unit
  | some name => restorePair pair name
  | none => pure ()

section Authorities

variable (lib : CertLibrary)

/-- The authority of a new process, if there is one. -/
def openStore : Prog CertAccess (Except CertError (Option CaHandle)) :=
  andThen (loadPair .ca) fun
    | some (certPem, keyPem) =>
      match CaHandle.load lib certPem keyPem with
      | .error error => pure (.error error)
      | .ok handle => do
        discardStaged .ca
        pure (.ok (some handle))
    | none => pure (.ok none)

structure CaInstalled where
  summary : CaSummary
  archivedPrevious : Bool

/-- What is done under the lock: the files, and then the slot and the leaves. -/
def installLocked (handle : CaHandle) (keyPem : Bytes) :
    Prog CertAccess (Except CertError CaInstalled) :=
  andThen (stagePair .ca handle.certPem keyPem) fun _ =>
    andThen (archiveExisting .ca) fun archive => do
      match ← commitPair .ca with
      | .error error => do
        restoreFrom .ca archive
        pure (.error error)
      | .ok () => do
        CertAccess.setSlot handle
        CertAccess.clearLeaves
        pure (.ok ⟨handle.summary, archive.isSome⟩)

def installCa (certPem keyPem : Bytes) : Prog CertAccess (Except CertError CaInstalled) :=
  match CaHandle.load lib certPem keyPem with
  | .error error => pure (.error error)
  | .ok handle => do
    CertAccess.lock .ca
    let result ← installLocked handle keyPem
    CertAccess.unlock .ca
    pure result

end Authorities

def maxHostLen : Nat := 253

def normalize (host : Bytes) : Option Bytes :=
  if host.isEmpty || decide (maxHostLen < host.length) then none else some (lower host)

/-- The leaf, or the right to mint it, waiting while somebody else has it. -/
def leaseHost : Nat → Bytes → Int → Prog CertAccess (Option Leaf)
  | 0, _, _ => .act .goOn Empty.elim
  | fuel + 1, host, now => do
    match ← CertAccess.lease host now with
    | .fresh key => pure (some key)
    | .mint => pure none
    | .busy => leaseHost fuel host now

/-- Mint, store, and give the right back. -/
def mintLeaf (ca : CaHandle) (host : Bytes) (epoch : Nat) :
    Prog CertAccess (Except CertError (Option Leaf)) := do
  match ← CertAccess.mint ca host with
  | .error error => do
    CertAccess.release host
    pure (.error error)
  | .ok key => do
    let current ← CertAccess.storeMinted host epoch key
    CertAccess.release host
    pure (.ok (if current then some key else none))

def prewarmWith (fuel : Nat) (ca : CaHandle) (host : Bytes) (now : Int) (epoch : Nat) :
    Prog CertAccess (Except CertError (Option Leaf)) := do
  match ← leaseHost fuel host now with
  | some key => pure (.ok (some key))
  | none => mintLeaf ca host epoch

/-- The authority together with the epoch of the cache. -/
def currentCa : Prog CertAccess (Except CertError (CaHandle × Nat)) := do
  CertAccess.lock .ca
  match ← CertAccess.readSlot with
  | none => do
    CertAccess.unlock .ca
    pure (.error .noCa)
  | some ca => do
    let epoch ← CertAccess.readEpoch
    CertAccess.unlock .ca
    pure (.ok (ca, epoch))

def prewarmHost : Nat → Bytes → Prog CertAccess (Except CertError Leaf)
  | 0, _ => .act .goOn Empty.elim
  | fuel + 1, host =>
    andThen currentCa fun (ca, epoch) => do
      let now ← CertAccess.now
      if now < ca.summary.notBefore then pure (.error (.notYetValid ca.summary.notBefore))
      else if ca.summary.notAfter < now then pure (.error (.expired ca.summary.notAfter))
      else andThen (prewarmWith fuel ca host now epoch) fun
        | some key => pure (.ok key)
        | none => prewarmHost fuel host

def prewarm (fuel : Nat) (host : Bytes) : Prog CertAccess (Except CertError Leaf) :=
  match normalize host with
  | some host => prewarmHost fuel host
  | none => pure (.error .invalidHost)

def cachedLeaf (host : Bytes) : Prog CertAccess (Option Leaf) :=
  match normalize host with
  | some host => do
    let now ← CertAccess.now
    CertAccess.cachedLeaf host now
  | none => pure none

section Servers

variable (lib : CertLibrary)

def restoreMarker : Except CertError Bytes → Prog CertAccess Unit
  | .ok previous => do
    let _ ← write .marker previous
    pure ()
  | .error _ => CertAccess.discard .marker

def installApiLocked (certPem keyPem : Bytes) (fingerprint : Bytes) :
    Prog CertAccess (Except CertError Unit) :=
  andThen (stagePair .api certPem keyPem) fun _ =>
    andThen (archiveExisting .api) fun archive => do
      let previous ← read .marker
      match ← orUnstage .api (write .marker fingerprint) with
      | .error error => pure (.error error)
      | .ok () =>
        match ← commitPair .api with
        | .error error => do
          restoreFrom .api archive
          restoreMarker previous
          pure (.error error)
        | .ok () => do
          CertAccess.setImported
          pure (.ok ())

def installApiPair (certPem keyPem : Bytes) : Prog CertAccess (Except CertError Unit) :=
  match firstCertificate lib certPem "the certificate" with
  | .error error => pure (.error error)
  | .ok der => do
    CertAccess.lock .api
    let result ← installApiLocked certPem keyPem (lib.fingerprint der)
    CertAccess.unlock .api
    pure result

structure ServerConfig where
  certs : List Bytes
  key : Bytes
  deriving DecidableEq

def parsePair (certPem keyPem : Bytes) : Except CertError (List Bytes × Bytes) :=
  match lib.certificates certPem with
  | .error source => .error (.io (.live .api .cert) source)
  | .ok [] => .error (.empty (.live .api .cert) "certificate")
  | .ok (der :: rest) =>
    match lib.privateKey keyPem with
    | .error source => .error (.io (.live .api .key) source)
    | .ok none => .error (.empty (.live .api .key) "private key")
    | .ok (some key) => .ok (der :: rest, key)

def serverConfig (certPem keyPem : Bytes) : Except CertError ServerConfig :=
  match parsePair lib certPem keyPem with
  | .error error => .error error
  | .ok (certs, key) =>
    match lib.singleCert certs key with
    | .error source => .error (.config (.live .api .cert) (.live .api .key) source)
    | .ok () => .ok ⟨certs, key⟩

/-- The key that is still staged may be the one of the certificate in place. -/
def completeInterruptedReplacement (certPem : Bytes) : Prog CertAccess (Option ServerConfig) := do
  if ← CertAccess.exists (.staged .api .key) then
    match ← read (.staged .api .key) with
    | .error _ => pure none
    | .ok stagedKey =>
      match serverConfig lib certPem stagedKey with
      | .error _ => pure none
      | .ok config => do
        match ← rename (.staged .api .key) (.live .api .key) with
        | .error _ => pure none
        | .ok () => pure (some config)
  else pure none

/-- The pair on the disk, or the one that was generated. -/
def loadOrWrite (generated : Except CertError (Bytes × Bytes)) :
    Prog CertAccess (Except CertError (Bytes × Bytes)) :=
  andThen (loadPair .api) fun
    | some pair => pure (.ok pair)
    | none =>
      match generated with
      | .error error => pure (.error error)
      | .ok (certPem, keyPem) =>
        andThen (writePair .api certPem keyPem) fun _ => do
          CertAccess.discard .marker
          pure (.ok (certPem, keyPem))

def configOf (certPem keyPem : Bytes) : Prog CertAccess (Except CertError ServerConfig) :=
  match serverConfig lib certPem keyPem with
  | .ok config => pure (.ok config)
  | .error error => do
    match ← completeInterruptedReplacement lib certPem with
    | some config => pure (.ok config)
    | none => pure (.error error)

def loadOrGenerate (generated : Except CertError (Bytes × Bytes)) :
    Prog CertAccess (Except CertError ServerConfig) :=
  andThen (loadOrWrite generated) fun (certPem, keyPem) =>
    andThen (configOf lib certPem keyPem) fun config => do
      discardStaged .api
      pure (.ok config)

end Servers

end FastAdHunter.Certs
