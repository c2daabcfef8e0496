import FastAdHunter.Api.Lists
import FastAdHunter.Lib.Hex

/-!
# Passwords and sessions

The hash of the password is kept in one file and the session secret in another,
each with a copy in memory. The secret in memory is behind a read-write lock: a
login holds it for reading from before it loads the hash until it has minted a
token, and whoever replaces the secret, alone or with the hash, holds it for
writing. A file is replaced by a staged write: a temporary file, a rename, and the
permissions of what is then in place. Every operation of the file system may fail,
a request may be dropped while it waits, and the process may stop anywhere;
random secrets are fresh.
-/

namespace FastAdHunter.Api.Auth

open Lib

/-- The hash of passwords and the authentication code of tokens. A hash is a text
without white space around it. -/
structure AuthLibrary where
  hashPassword : Bytes → Bytes → Except Bytes Bytes
  verifyPassword : Bytes → Bytes → Except Bytes Bool
  hmac : Bytes → Bytes → Bytes
  hash_trimmed : ∀ {password salt hash}, hashPassword password salt = .ok hash →
    trim hash = hash ∧ hash ≠ []

section Tokens

variable (lib : AuthLibrary)

def secretBytes : Nat := 32

def nonceBytes : Nat := 16

def payloadBytes : Nat := 1 + 8 + nonceBytes

def macBytes : Nat := 32

def tokenVersion : UInt8 := 1

/-- Seven days, in seconds. -/
def sessionLifetime : Nat := 7 * 24 * 3600

/-- The eight bytes of a number, the highest first. -/
def toBeBytes (n : Nat) : Bytes :=
  [56, 48, 40, 32, 24, 16, 8, 0].map fun shift => UInt8.ofNat (n / 2 ^ shift)

def fromBeBytes (bytes : Bytes) : Nat :=
  bytes.foldl (fun n byte => n * 256 + byte.toNat) 0

def mintRaw (key : Bytes) (version : UInt8) (expiry : Nat) (nonce : Bytes) : Bytes :=
  let payload := version :: toBeBytes expiry ++ nonce
  writeHex payload ++ writeHex (lib.hmac key payload)

def mint (key : Bytes) (expiry : Nat) (nonce : Bytes) : Bytes :=
  mintRaw lib key tokenVersion expiry nonce

def verify (key token : Bytes) (now : Nat) : Bool :=
  match decodeHex (payloadBytes + macBytes) token with
  | none => false
  | some raw =>
    let payload := raw.take payloadBytes
    let mac := raw.drop payloadBytes
    if payload.head? ≠ some tokenVersion then false
    else if lib.hmac key payload ≠ mac then false
    else now < fromBeBytes ((payload.drop 1).take 8)

def cookieName : Bytes := lit "__Host-fah_session"

def setCookie (token : Bytes) : Bytes :=
  cookieName ++ lit "=" ++ token ++
    lit "; Secure; HttpOnly; SameSite=Strict; Path=/; Max-Age=604800"

def clearCookie : Bytes :=
  cookieName ++ lit "=; Secure; HttpOnly; SameSite=Strict; Path=/; Max-Age=0"

end Tokens

inductive AuthFile where
  | hash
  | secret
  deriving DecidableEq

/-- The hash in a file, if the file is not blank. -/
def storedHash (contents : Option Bytes) : Option Bytes :=
  (contents.map trim).filter fun text => !text.isEmpty

/-- The secret in a file, if the file holds one. -/
def loadSecret (contents : Option Bytes) : Option Bytes :=
  contents.bind fun text => decodeHex secretBytes (trim text)

lemma loadSecret_written (h : secret.length = secretBytes) :
    loadSecret (some (writeHex secret)) = some secret := by
  rw [loadSecret, Option.bind_some, trim_writeHex, ← h]
  exact decodeHex_writeHex secret

lemma storedHash_written {lib : AuthLibrary} {password salt hash : Bytes}
    (h : lib.hashPassword password salt = .ok hash) : storedHash (some hash) = some hash := by
  obtain ⟨htrim, hne⟩ := lib.hash_trimmed h
  rw [storedHash, Option.map_some, htrim, Option.filter_some, if_pos]
  simpa using hne

section Machine

variable (lib : AuthLibrary)

inductive RateDecision where
  | allowed
  | limited (retryAfter : Nat)
  deriving DecidableEq

/-- The atomic accesses: the steps of a staged write, reading a file, drawing
random bytes, the lock, the copies in memory, the work on passwords, for which a
request waits and may be dropped, and the limits of a client. -/
inductive AuthAccess : Type → Type where
  | createDir (file : AuthFile) : AuthAccess (Except Bytes Unit)
  | writeTmp (file : AuthFile) (contents : Bytes) : AuthAccess (Except Bytes Unit)
  | restrictTmp (file : AuthFile) : AuthAccess (Except Bytes Unit)
  | removeTmp (file : AuthFile) : AuthAccess Unit
  | rename (file : AuthFile) : AuthAccess (Except Bytes Unit)
  | restrict (file : AuthFile) : AuthAccess (Except Bytes Unit)
  | readFile (file : AuthFile) : AuthAccess (Option Bytes)
  | drawSecret : AuthAccess Bytes
  | drawBytes : AuthAccess Bytes
  | lockRead : AuthAccess Unit
  | unlockRead : AuthAccess Unit
  | lockWrite : AuthAccess Unit
  | unlockWrite : AuthAccess Unit
  | readSecret : AuthAccess Bytes
  | setSecret (secret : Bytes) : AuthAccess Unit
  | loadHash : AuthAccess Bytes
  | storeHash (hash : Bytes) : AuthAccess Unit
  | verifyPassword (hash candidate : Bytes) : AuthAccess (Option (Except Bytes Bool))
  | hashPassword (password : Bytes) : AuthAccess (Option (Except Bytes Bytes))
  | mint (key : Bytes) : AuthAccess Bytes
  | now : AuthAccess Nat
  | checkRate : AuthAccess RateDecision
  | tryPermit : AuthAccess Bool
  | dropPermit : AuthAccess Unit

/-- The files with their temporary ones, what is in memory, the lock, the permits
for work on passwords, and the secrets drawn so far. -/
structure AuthState where
  disk : AuthFile → Option Bytes
  tmp : AuthFile → Option Bytes
  hash : Bytes
  secret : Bytes
  readers : List Nat
  writer : Option Nat
  permits : Nat
  drawn : List Bytes

/-- What the environment chooses: whether an operation fails, and what a failed
write leaves; random bytes; the time; whether the request is dropped; and the word
of the rate limiter. -/
structure Chance where
  fails : Option Bytes
  left : Option Bytes
  bytes : Bytes
  time : Nat
  dropped : Bool
  rate : RateDecision

def argon2Permits : Nat := 2

/-- An operation that may fail. -/
def attempt (x : Chance) (s t : AuthState) : Option (Except Bytes Unit × AuthState) :=
  match x.fails with
  | some error => some (.error error, s)
  | none => some (.ok (), t)

local instance lawfulBytes : LawfulBEq Bytes := inferInstance

def serve {β : Type} (access : AuthAccess β) (i : Nat) (x : Chance) (s : AuthState) :
    Option (β × AuthState) :=
  match access with
  | .createDir _ => attempt x s s
  | .writeTmp file contents =>
    attempt x { s with tmp := Function.update s.tmp file x.left }
      { s with tmp := Function.update s.tmp file (some contents) }
  | .restrictTmp _ => attempt x s s
  | .removeTmp file =>
    if x.fails.isSome then some ((), s)
    else some ((), { s with tmp := Function.update s.tmp file none })
  | .rename file =>
    match s.tmp file with
    | some contents => attempt x s { s with
        disk := Function.update s.disk file (some contents)
        tmp := Function.update s.tmp file none }
    | none => some (.error x.bytes, s)
  | .restrict _ => attempt x s s
  | .readFile file => some (if x.fails.isSome then none else s.disk file, s)
  | .drawSecret =>
    if x.bytes.length = secretBytes ∧ x.bytes ∉ s.drawn then
      some (x.bytes, { s with drawn := s.drawn ++ [x.bytes] })
    else none
  | .drawBytes => some (x.bytes, s)
  | .lockRead => if s.writer.isNone then some ((), { s with readers := i :: s.readers }) else none
  | .unlockRead => some ((), { s with readers := s.readers.erase i })
  | .lockWrite =>
    if s.writer.isNone && s.readers.isEmpty then some ((), { s with writer := some i }) else none
  | .unlockWrite => some ((), { s with writer := none })
  | .readSecret => some (s.secret, s)
  | .setSecret secret => some ((), { s with secret := secret })
  | .loadHash => some (s.hash, s)
  | .storeHash hash => some ((), { s with hash := hash })
  | .verifyPassword hash candidate =>
    if x.dropped then some (none, s)
    else match x.fails with
      | some error => some (some (.error error), s)
      | none => some (some (lib.verifyPassword hash candidate), s)
  | .hashPassword password =>
    if x.dropped then some (none, s)
    else match x.fails with
      | some error => some (some (.error error), s)
      | none => some (some (lib.hashPassword password x.bytes), s)
  | .mint key => some (Auth.mint lib key (x.time + sessionLifetime) x.bytes, s)
  | .now => some (x.time, s)
  | .checkRate => some (x.rate, s)
  | .tryPermit =>
    if 0 < s.permits then some (true, { s with permits := s.permits - 1 }) else some (false, s)
  | .dropPermit => some ((), { s with permits := s.permits + 1 })

def machine : Machine AuthAccess AuthState Chance where
  run access i x s := serve lib access i x s

end Machine

section State

variable (lib : AuthLibrary)

def stageWrite (file : AuthFile) (contents : Bytes) : Prog AuthAccess (Except Bytes Unit) := do
  match ← AuthAccess.createDir file with
  | .error error => pure (.error error)
  | .ok () =>
    match ← AuthAccess.writeTmp file contents with
    | .error error => do
      AuthAccess.removeTmp file
      pure (.error error)
    | .ok () =>
      match ← AuthAccess.restrictTmp file with
      | .error error => do
        AuthAccess.removeTmp file
        pure (.error error)
      | .ok () =>
        match ← AuthAccess.rename file with
        | .error error => do
          AuthAccess.removeTmp file
          pure (.error error)
        | .ok () => AuthAccess.restrict file

def writeFreshSecret : Prog AuthAccess (Except Bytes Bytes) := do
  let secret ← AuthAccess.drawSecret
  match ← stageWrite .secret (writeHex secret) with
  | .error error => pure (.error error)
  | .ok () => pure (.ok secret)

def verifySession (token : Bytes) : Prog AuthAccess Bool := do
  AuthAccess.lockRead
  let secret ← AuthAccess.readSecret
  let now ← AuthAccess.now
  AuthAccess.unlockRead
  pure (verify lib secret token now)

/-- A token, no token, an error, or nothing when the request was dropped. -/
inductive Minted where
  | token (token : Bytes)
  | refused
  | failed (error : Bytes)
  | dropped

def verifyAndMint (candidate : Bytes) : Prog AuthAccess Minted := do
  AuthAccess.lockRead
  let hash ← AuthAccess.loadHash
  let verified ← AuthAccess.verifyPassword hash candidate
  AuthAccess.dropPermit
  match verified with
  | none => do
    AuthAccess.unlockRead
    pure .dropped
  | some (.error error) => do
    AuthAccess.unlockRead
    pure (.failed error)
  | some (.ok false) => do
    AuthAccess.unlockRead
    pure .refused
  | some (.ok true) => do
    let key ← AuthAccess.readSecret
    let token ← AuthAccess.mint key
    AuthAccess.unlockRead
    pure (.token token)

def verifyOnly (candidate : Bytes) : Prog AuthAccess (Option (Except Bytes Bool)) := do
  let hash ← AuthAccess.loadHash
  AuthAccess.verifyPassword hash candidate

def rotateSecret : Prog AuthAccess (Except Bytes Unit) := do
  AuthAccess.lockWrite
  match ← writeFreshSecret with
  | .error error => do
    AuthAccess.unlockWrite
    pure (.error error)
  | .ok secret => do
    AuthAccess.setSecret secret
    AuthAccess.unlockWrite
    pure (.ok ())

def replacePassword (newHash : Bytes) : Prog AuthAccess (Except Bytes Unit) := do
  AuthAccess.lockWrite
  match ← writeFreshSecret with
  | .error error => do
    AuthAccess.unlockWrite
    pure (.error error)
  | .ok secret => do
    AuthAccess.setSecret secret
    match ← stageWrite .hash newHash with
    | .error error => do
      AuthAccess.unlockWrite
      pure (.error error)
    | .ok () => do
      AuthAccess.storeHash newHash
      AuthAccess.unlockWrite
      pure (.ok ())

end State

/-- Five bits a letter, from the highest; the accumulator has sixteen bits. -/
def base32Letters : Nat → Nat → Nat → Bytes → Bytes × Nat
  | 0, _, bits, out => (out, bits)
  | fuel + 1, accumulator, bits, out =>
    if 5 ≤ bits then
      let index := accumulator / 2 ^ (bits - 5) % 32
      base32Letters fuel accumulator (bits - 5)
        (out ++ ((lit "abcdefghijklmnopqrstuvwxyz234567")[index]?).toList)
    else (out, bits)

def generatePasswordFrom : Bytes → Nat → Nat → Bytes → Bytes
  | [], accumulator, bits, out =>
    if 0 < bits then
      out ++ ((lit "abcdefghijklmnopqrstuvwxyz234567")[accumulator * 2 ^ (5 - bits) % 32]?).toList
    else out
  | byte :: rest, accumulator, bits, out =>
    let accumulator := accumulator * 2 ^ 8 % 2 ^ 16 + byte.toNat
    let (out, bits) := base32Letters 3 accumulator (bits + 8) out
    generatePasswordFrom rest accumulator bits out

def generatePassword (bytes : Bytes) : Bytes :=
  generatePasswordFrom bytes 0 0 []

/-- What a new process serves with: the secret, the hash, and the password if it
was made up. -/
structure Built where
  secret : Bytes
  hash : Bytes
  generated : Option Bytes

/-- A password is made up and its hash stored. -/
def resetPassword (secret : Bytes) : Prog AuthAccess (Except Bytes Built) := do
  let bytes ← AuthAccess.drawBytes
  let password := generatePassword bytes
  match ← AuthAccess.hashPassword password with
  | none => pure (.error [])
  | some (.error error) => pure (.error error)
  | some (.ok hash) =>
    match ← stageWrite .hash hash with
    | .error error => pure (.error error)
    | .ok () => pure (.ok ⟨secret, hash, some password⟩)

/-- What a process does before it serves. -/
def build : Prog AuthAccess (Except Bytes Built) := do
  AuthAccess.removeTmp .hash
  let hashText ← AuthAccess.readFile .hash
  AuthAccess.removeTmp .secret
  let secretText ← AuthAccess.readFile .secret
  match storedHash hashText, loadSecret secretText with
  | some hash, some secret => pure (.ok ⟨secret, hash, none⟩)
  | some hash, none => do
    match ← writeFreshSecret with
    | .error error => pure (.error error)
    | .ok secret => pure (.ok ⟨secret, hash, none⟩)
  | none, _ => do
    match ← writeFreshSecret with
    | .error error => pure (.error error)
    | .ok secret => resetPassword secret

inductive AuthReply where
  | noContent (cookie : Bytes)
  | unauthorized
  | rateLimited (message : List Piece) (retryAfter : Nat)
  | unavailable (message : List Piece) (retryAfter : Option Nat)
  | validationFailed (message : List Piece)
  | internal (message : List Piece)
  | session (valid : Bool)
  | dropped

/-- Pay for one piece of work on a password. -/
def spendArgon2 : Prog AuthAccess (Except AuthReply Unit) := do
  match ← AuthAccess.checkRate with
  | .limited retryAfter =>
    pure (.error (.rateLimited [.lit "too many password attempts; try again shortly"] retryAfter))
  | .allowed => do
    if ← AuthAccess.tryPermit then pure (.ok ())
    else pure (.error
      (.unavailable [.lit "password verification is busy; retry in a moment"] (some 1)))

def authLogin (tls : Bool) (password : Bytes) : Prog AuthAccess AuthReply :=
  if tls then do
    match ← spendArgon2 with
    | .error reply => pure reply
    | .ok () =>
      match ← verifyAndMint password with
      | .token token => pure (.noContent (setCookie token))
      | .refused => pure .unauthorized
      | .failed error => pure (.internal [.text error])
      | .dropped => pure .dropped
  else pure (.unavailable [.lit ("session authentication requires TLS: set [api] tls = true and " ++
    "restart. Bearer-key authentication is unaffected")] none)

def authLogoutAll : Prog AuthAccess AuthReply := do
  match ← rotateSecret with
  | .error error => pure (.internal [.lit "rotating the session secret: ", .text error])
  | .ok () => pure (.noContent clearCookie)

def minPasswordChars : Nat := 12

/-- The characters of a text: its bytes that do not continue one. -/
def charCount (text : Bytes) : Nat :=
  text.countP fun byte => byte &&& 0xc0 != 0x80

structure PasswordChangeRequest where
  currentPassword : Bytes
  newPassword : Bytes

/-- The change itself, once the current password was found right. -/
def changePassword (request : PasswordChangeRequest) : Prog AuthAccess AuthReply := do
  let hashed ← AuthAccess.hashPassword request.newPassword
  AuthAccess.dropPermit
  match hashed with
  | none => pure .dropped
  | some (.error error) => pure (.internal [.text error])
  | some (.ok newHash) =>
    match ← replacePassword newHash with
    | .error error => pure (.internal [.lit "persisting the new password: ", .text error])
    | .ok () => pure (.noContent clearCookie)

def authPassword (request : PasswordChangeRequest) : Prog AuthAccess AuthReply :=
  if charCount request.newPassword < minPasswordChars then
    pure (.validationFailed [.lit "new_password must be at least 12 characters"])
  else do
    match ← spendArgon2 with
    | .error reply => pure reply
    | .ok () =>
      match ← verifyOnly request.currentPassword with
      | none => do
        AuthAccess.dropPermit
        pure .dropped
      | some (.error error) => do
        AuthAccess.dropPermit
        pure (.internal [.text error])
      | some (.ok false) => do
        AuthAccess.dropPermit
        pure .unauthorized
      | some (.ok true) => changePassword request

/-- What runs beside each other. -/
inductive AuthTask where
  | login (tls : Bool) (password : Bytes)
  | logoutAll
  | passwordChange (request : PasswordChangeRequest)
  | session (token : Bytes)

def AuthTask.prog (lib : AuthLibrary) : AuthTask → Prog AuthAccess AuthReply
  | .login tls password => authLogin tls password
  | .logoutAll => authLogoutAll
  | .passwordChange request => authPassword request
  | .session token => do
    let valid ← verifySession lib token
    pure (.session valid)

end FastAdHunter.Api.Auth
