import FastAdHunter.Lib.Words

/-!
# The certificate authority

A certificate and its private key are two texts. The authority is loaded from
them: the key has to be a key, the first certificate of the text a certificate of
an authority, and the key its key. What is then kept, and written to the disk, is
that one certificate, written out anew.
-/

namespace FastAdHunter.Certs

open Lib

/-- The two pairs on the disk. -/
inductive Pair where
  | ca
  | api
  deriving DecidableEq

inductive PairFile where
  | cert
  | key
  deriving DecidableEq

/-- The name of an archive: its second, and the attempt within it. -/
structure ArchiveName where
  stamp : Int
  attempt : Nat
  deriving DecidableEq

/-- The files and directories of the store. -/
inductive CertPath where
  | live (pair : Pair) (file : PairFile)
  | staged (pair : Pair) (file : PairFile)
  | archived (pair : Pair) (name : ArchiveName) (file : PairFile)
  | archive (pair : Pair) (name : ArchiveName)
  | archives (pair : Pair)
  | marker
  | configDir
  deriving DecidableEq

inductive CertError where
  | io (path : CertPath) (source : Bytes)
  | generate (source : Bytes)
  | empty (path : CertPath) (what : String)
  | config (cert key : CertPath) (source : Bytes)
  | incompletePair (present missing : CertPath)
  | parse (what : String) (detail : Bytes)
  | expired (notAfter : Int)
  | notYetValid (notBefore : Int)
  | keyMismatch
  | notACa
  | noCa
  | invalidHost
  | archiveFull (archive : Pair) (limit : Nat)
  deriving DecidableEq

section Library

/-- What a certificate says. -/
structure Parsed where
  isCa : Bool
  keyCertSign : Option Bool
  subjectPki : Bytes
  notBefore : Int
  notAfter : Int
  subject : Bytes

/-- The readers and writers of certificates and keys. Certificates that were
written are read back, and a server accepts a chain with a key exactly when the
key is the one its first certificate names. -/
structure CertLibrary where
  certificates : Bytes → Except Bytes (List Bytes)
  certificatePem : List Bytes → Bytes
  parseCertificate : Bytes → Except Bytes Parsed
  keyPair : Bytes → Except Bytes Bytes
  privateKey : Bytes → Except Bytes (Option Bytes)
  publicKey : Bytes → Except Bytes (Option Bytes)
  issuer : Bytes → Except Bytes Unit
  fingerprint : Bytes → Bytes
  singleCert : List Bytes → Bytes → Except Bytes Unit
  certificates_pem : ∀ ders, certificates (certificatePem ders) = .ok ders
  singleCert_ok : ∀ {der rest key}, singleCert (der :: rest) key = .ok () ↔
    ∃ parsed, parseCertificate der = .ok parsed ∧ publicKey key = .ok (some parsed.subjectPki)

variable (lib : CertLibrary)

def parseError {α : Type} (what : String) : Except Bytes α → Except CertError α
  | .error detail => .error (.parse what detail)
  | .ok a => .ok a

def allCertificates (text : Bytes) (what : String) : Except CertError (List Bytes) := do
  let certificates ← parseError what (lib.certificates text)
  if certificates.isEmpty then .error (.parse what (lit "no CERTIFICATE block"))
  else pure certificates

def firstCertificate (text : Bytes) (what : String) : Except CertError Bytes := do
  match ← allCertificates lib text what with
  | der :: _ => pure der
  | [] => .error (.parse what (lit "no CERTIFICATE block"))

def textKey (keyPem : Bytes) : Except CertError (Option Bytes) := do
  match ← parseError "the private key" (lib.privateKey keyPem) with
  | some key => parseError "the private key" (lib.publicKey key)
  | none => .error (.parse "the private key" (lit "no PRIVATE KEY block"))

def ensureKeyMatches (keyPem subjectPki : Bytes) : Except CertError Unit := do
  match ← textKey lib keyPem with
  | some spki => if spki = subjectPki then pure () else .error .keyMismatch
  | none => .error .keyMismatch

end Library

section Handles

structure CaSummary where
  fingerprintSha256 : Bytes
  notBefore : Int
  notAfter : Int
  subject : Bytes
  deriving DecidableEq

/-- An authority with its key. -/
structure CaHandle where
  key : Bytes
  certPem : Bytes
  certDer : Bytes
  summary : CaSummary
  deriving DecidableEq

variable (lib : CertLibrary)

def summarize (der keyPem : Bytes) : Except CertError CaSummary := do
  let parsed ← parseError "the CA certificate" (lib.parseCertificate der)
  if parsed.isCa then
    ensureKeyMatches lib keyPem parsed.subjectPki
    pure ⟨lib.fingerprint der, parsed.notBefore, parsed.notAfter, parsed.subject⟩
  else .error .notACa

def CaHandle.load (certPem keyPem : Bytes) : Except CertError CaHandle := do
  let key ← parseError "the CA private key" (lib.keyPair keyPem)
  let certDer ← firstCertificate lib certPem "the CA certificate"
  let summary ← summarize lib certDer keyPem
  let certPem := lib.certificatePem [certDer]
  parseError "the CA certificate" (lib.issuer certPem)
  pure ⟨key, certPem, certDer, summary⟩

variable {lib}

lemma parseError_ok (h : parseError what r = .ok a) : r = .ok a := by
  cases r with
  | error detail => cases h
  | ok b => exact congrArg Except.ok (Except.ok.inj h)

variable {certPem keyPem : Bytes} {handle : CaHandle}

lemma CaHandle.load_ok :
    CaHandle.load lib certPem keyPem = .ok handle ↔
      lib.keyPair keyPem = .ok handle.key ∧
      firstCertificate lib certPem "the CA certificate" = .ok handle.certDer ∧
      summarize lib handle.certDer keyPem = .ok handle.summary ∧
      handle.certPem = lib.certificatePem [handle.certDer] ∧
      lib.issuer handle.certPem = .ok () := by
  constructor
  · intro h
    unfold CaHandle.load at h
    cases hkey : lib.keyPair keyPem with
    | error detail => simp [hkey, parseError, bind, Except.bind] at h
    | ok key =>
      cases hder : firstCertificate lib certPem "the CA certificate" with
      | error detail => simp [hkey, hder, parseError, bind, Except.bind] at h
      | ok der =>
        cases hsummary : summarize lib der keyPem with
        | error detail => simp [hkey, hder, hsummary, parseError, bind, Except.bind] at h
        | ok summary =>
          cases hissuer : lib.issuer (lib.certificatePem [der]) with
          | error detail => simp [hkey, hder, hsummary, hissuer, parseError, bind, Except.bind] at h
          | ok _ =>
            simp only [hkey, hder, hsummary, hissuer, parseError, bind, Except.bind, pure,
              Except.pure, Except.ok.injEq] at h
            subst h
            exact ⟨rfl, rfl, hsummary, rfl, hissuer⟩
  · rintro ⟨hkey, hder, hsummary, hpem, hissuer⟩
    obtain ⟨key, pem, der, summary⟩ := handle
    dsimp only at hkey hder hsummary hpem hissuer
    subst hpem
    simp only [CaHandle.load, hkey, hder, hsummary, hissuer, parseError, bind, Except.bind, pure,
      Except.pure]

lemma firstCertificate_pem (der : Bytes) (rest : List Bytes) (what : String) :
    firstCertificate lib (lib.certificatePem (der :: rest)) what = .ok der := by
  simp [firstCertificate, allCertificates, lib.certificates_pem, parseError, bind, Except.bind, pure,
    Except.pure]

lemma CaHandle.load_again (h : CaHandle.load lib certPem keyPem = .ok handle) :
    CaHandle.load lib handle.certPem keyPem = .ok handle := by
  obtain ⟨hkey, -, hsummary, hpem, hissuer⟩ := CaHandle.load_ok.mp h
  refine CaHandle.load_ok.mpr ⟨hkey, ?_, hsummary, hpem, hissuer⟩
  rw [hpem]
  exact firstCertificate_pem _ _ _

lemma ensureKeyMatches_ok :
    ensureKeyMatches lib keyPem subjectPki = .ok () ↔ textKey lib keyPem = .ok (some subjectPki) := by
  unfold ensureKeyMatches
  cases htext : textKey lib keyPem with
  | error error => simp [bind, Except.bind]
  | ok found =>
    cases found with
    | none => simp [bind, Except.bind]
    | some spki =>
      simp only [bind, Except.bind]
      split
      next heq => simp [heq, pure, Except.pure]
      next hne => simp [hne]

lemma summarize_ok :
    summarize lib der keyPem = .ok summary ↔
      ∃ parsed, lib.parseCertificate der = .ok parsed ∧ parsed.isCa = true ∧
        textKey lib keyPem = .ok (some parsed.subjectPki) ∧
        summary = ⟨lib.fingerprint der, parsed.notBefore, parsed.notAfter, parsed.subject⟩ := by
  unfold summarize
  cases hparsed : lib.parseCertificate der with
  | error detail => simp [parseError, bind, Except.bind]
  | ok parsed =>
    simp only [parseError, bind, Except.bind, Except.ok.injEq]
    split
    next hca =>
      cases hmatches : ensureKeyMatches lib keyPem parsed.subjectPki with
      | error error =>
        have hne : textKey lib keyPem ≠ .ok (some parsed.subjectPki) := by
          intro hkey
          rw [ensureKeyMatches_ok.mpr hkey] at hmatches
          cases hmatches
        simp [hne]
      | ok _ =>
        rw [ensureKeyMatches_ok.mp hmatches]
        simp [hca, pure, Except.pure, eq_comm]
    next hca => simp [hca]

lemma CaHandle.load_key (h : CaHandle.load lib certPem keyPem = .ok handle) :
    ∃ parsed, lib.parseCertificate handle.certDer = .ok parsed ∧
      textKey lib keyPem = .ok (some parsed.subjectPki) := by
  obtain ⟨-, -, hsummary, -, -⟩ := CaHandle.load_ok.mp h
  obtain ⟨parsed, hparsed, -, hkey, -⟩ := summarize_ok.mp hsummary
  exact ⟨parsed, hparsed, hkey⟩

lemma CaHandle.load_other (h : CaHandle.load lib certPem keyPem = .ok handle)
    (h' : CaHandle.load lib certPem' keyPem' = .ok handle') :
    (∃ other, CaHandle.load lib handle.certPem keyPem' = .ok other) ↔
      textKey lib keyPem' = textKey lib keyPem := by
  obtain ⟨hpair, -, hsummary, hpem, hissuer⟩ := CaHandle.load_ok.mp h
  have hder : firstCertificate lib handle.certPem "the CA certificate" = .ok handle.certDer := by
    rw [hpem]
    exact firstCertificate_pem _ _ _
  constructor
  · rintro ⟨other, hother⟩
    obtain ⟨parsed, hparsed, hkey⟩ := CaHandle.load_key h
    obtain ⟨parsed', hparsed', hkey'⟩ := CaHandle.load_key hother
    obtain ⟨-, hder', -, -, -⟩ := CaHandle.load_ok.mp hother
    rw [hder, Except.ok.injEq] at hder'
    rw [← hder', hparsed, Except.ok.injEq] at hparsed'
    rw [hkey, hkey', hparsed']
  · intro hsame
    obtain ⟨hpair', -, -, -, -⟩ := CaHandle.load_ok.mp h'
    obtain ⟨parsed, hparsed, hca, hkey, hsum⟩ := summarize_ok.mp hsummary
    refine ⟨⟨handle'.key, handle.certPem, handle.certDer, handle.summary⟩, CaHandle.load_ok.mpr
      ⟨hpair', hder, summarize_ok.mpr ⟨parsed, hparsed, hca, hsame.trans hkey, hsum⟩, hpem, hissuer⟩⟩

end Handles

section Imports

variable (lib : CertLibrary)

def signsCertificates (parsed : Parsed) : Bool :=
  parsed.isCa && parsed.keyCertSign.getD true

/-- Check a pair that is to be imported; what is kept of the certificates is
written out anew. -/
def validate (now : Int) (certPem keyPem : Bytes) (requireCa : Bool) :
    Except CertError (Bytes × Bytes) := do
  let chain ← allCertificates lib certPem "the certificate"
  let parsed ← parseError "the certificate" (lib.parseCertificate (chain.headD []))
  if now < parsed.notBefore then .error (.notYetValid parsed.notBefore)
  else if parsed.notAfter < now then .error (.expired parsed.notAfter)
  else if requireCa && !signsCertificates parsed then .error .notACa
  else
    ensureKeyMatches lib keyPem parsed.subjectPki
    pure (lib.certificatePem (if requireCa then chain.take 1 else chain), keyPem)

end Imports

end FastAdHunter.Certs
