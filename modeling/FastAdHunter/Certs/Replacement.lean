import FastAdHunter.Certs.Installed
import FastAdHunter.Lib.Alone

/-!
# Replacing a pair

A new pair is installed over an old one, and the process may stop after any step.
The next process opens what is on the disk. Between the two renames the new
certificate is in place with the old key; the server of the interface then takes
the key that is still staged, the store of the authority does not.
-/

namespace FastAdHunter.Certs

open Lib List

section Opening

variable (lib : CertLibrary)

inductive Opened where
  | authority (handle : Option CaHandle)
  | server (config : ServerConfig)

/-- Open a pair; for the server, this is generated if there is none. -/
def reopen (generated : Except CertError (Bytes × Bytes)) :
    Pair → Prog CertAccess (Except CertError Opened)
  | .ca => andThen (openStore lib) fun handle => pure (.ok (.authority handle))
  | .api => andThen (loadOrGenerate lib generated) fun config => pure (.ok (.server config))

/-- The texts of a pair make up what was opened; so they match. -/
def LoadsTo (certPem keyPem : Bytes) : Opened → Prop
  | .authority (some handle) => CaHandle.load lib certPem keyPem = .ok handle
  | .authority none => False
  | .server config => serverConfig lib certPem keyPem = .ok config

def Loadable (certPem keyPem : Bytes) : Pair → Prop
  | .ca => ∃ handle, CaHandle.load lib certPem keyPem = .ok handle
  | .api => ∃ config, serverConfig lib certPem keyPem = .ok config

/-- Two texts of one certificate, and two texts of one key. -/
def SamePair (certPem keyPem certPem' keyPem' : Bytes) : Prop :=
  (∀ what, firstCertificate lib certPem what = firstCertificate lib certPem' what) ∧
    textKey lib keyPem = textKey lib keyPem'

lemma SamePair.refl (certPem keyPem : Bytes) : SamePair lib certPem keyPem certPem keyPem :=
  ⟨fun _ => rfl, rfl⟩

variable {lib}

variable {certPem keyPem : Bytes} {config : ServerConfig}

lemma serverConfig_ok :
    serverConfig lib certPem keyPem = .ok config ↔
      ∃ der rest parsed, lib.certificates certPem = .ok (der :: rest) ∧
        lib.privateKey keyPem = .ok (some config.key) ∧ config.certs = der :: rest ∧
        lib.parseCertificate der = .ok parsed ∧
        lib.publicKey config.key = .ok (some parsed.subjectPki) := by
  constructor
  · intro h
    unfold serverConfig parsePair at h
    cases hcerts : lib.certificates certPem with
    | error source => simp [hcerts] at h
    | ok ders =>
      cases ders with
      | nil => simp [hcerts] at h
      | cons der rest =>
        cases hkey : lib.privateKey keyPem with
        | error source => simp [hcerts, hkey] at h
        | ok found =>
          cases found with
          | none => simp [hcerts, hkey] at h
          | some key =>
            cases hsingle : lib.singleCert (der :: rest) key with
            | error source => simp [hcerts, hkey, hsingle] at h
            | ok _ =>
              simp only [hcerts, hkey, hsingle, Except.ok.injEq] at h
              subst h
              obtain ⟨parsed, hparsed, hpublic⟩ := lib.singleCert_ok.mp hsingle
              exact ⟨der, rest, parsed, rfl, rfl, rfl, hparsed, hpublic⟩
  · rintro ⟨der, rest, parsed, hcerts, hkey, hconfig, hparsed, hpublic⟩
    obtain ⟨certs, key⟩ := config
    have hsingle : lib.singleCert (der :: rest) key = .ok () :=
      lib.singleCert_ok.mpr ⟨parsed, hparsed, hpublic⟩
    subst hconfig
    simp only [serverConfig, parsePair, hcerts, hkey, hsingle]

lemma serverConfig_key (h : serverConfig lib certPem keyPem = .ok config) :
    ∃ der rest parsed, lib.certificates certPem = .ok (der :: rest) ∧
      lib.parseCertificate der = .ok parsed ∧ textKey lib keyPem = .ok (some parsed.subjectPki) := by
  obtain ⟨der, rest, parsed, hcerts, hkey, -, hparsed, hpublic⟩ := serverConfig_ok.mp h
  refine ⟨der, rest, parsed, hcerts, hparsed, ?_⟩
  simp [textKey, hkey, hpublic, parseError, bind, Except.bind]

lemma serverConfig_same (h : serverConfig lib certPem keyPem = .ok config)
    (h' : serverConfig lib certPem keyPem' = .ok config') :
    textKey lib keyPem = textKey lib keyPem' := by
  obtain ⟨der, rest, parsed, hcerts, hparsed, hkey⟩ := serverConfig_key h
  obtain ⟨der', rest', parsed', hcerts', hparsed', hkey'⟩ := serverConfig_key h'
  rw [hcerts, Except.ok.injEq, List.cons.injEq] at hcerts'
  rw [← hcerts'.1, hparsed, Except.ok.injEq] at hparsed'
  rw [hkey, hkey', hparsed']

lemma textKey_ok (h : textKey lib keyPem = .ok (some spki)) :
    ∃ key, lib.privateKey keyPem = .ok (some key) ∧ lib.publicKey key = .ok (some spki) := by
  unfold textKey at h
  cases hkey : lib.privateKey keyPem with
  | error source => simp [hkey, parseError, bind, Except.bind] at h
  | ok found =>
    cases found with
    | none => simp [hkey, parseError, bind, Except.bind] at h
    | some key =>
      simp only [hkey] at h
      exact ⟨key, rfl, parseError_ok h⟩

lemma allCertificates_ok (h : allCertificates lib text what = .ok chain) :
    lib.certificates text = .ok chain ∧ chain ≠ [] := by
  unfold allCertificates at h
  cases hcerts : lib.certificates text with
  | error source => simp [hcerts, parseError, bind, Except.bind] at h
  | ok ders =>
    simp only [hcerts, parseError, bind, Except.bind] at h
    split at h
    · cases h
    next hne =>
      cases h
      exact ⟨rfl, by simpa using hne⟩

lemma firstCertificate_any (h : firstCertificate lib text what = .ok der) (other : String) :
    firstCertificate lib text other = .ok der := by
  unfold firstCertificate at h
  cases hchain : allCertificates lib text what with
  | error error => simp [hchain, bind, Except.bind] at h
  | ok chain =>
    obtain ⟨hcerts, hne⟩ := allCertificates_ok hchain
    obtain ⟨first, rest, rfl⟩ := exists_cons_of_ne_nil hne
    simp only [hchain, bind, Except.bind, pure, Except.pure, Except.ok.injEq] at h
    subst h
    simp [firstCertificate, allCertificates, hcerts, parseError, bind, Except.bind, pure, Except.pure]

lemma SamePair.written (h : CaHandle.load lib certPem keyPem = .ok handle) :
    SamePair lib handle.certPem keyPem certPem keyPem := by
  obtain ⟨-, hder, -, hpem, -⟩ := CaHandle.load_ok.mp h
  refine ⟨fun what => ?_, rfl⟩
  rw [firstCertificate_any hder what, hpem]
  exact firstCertificate_pem _ _ _

lemma serverConfig_validated {newCert newKey : Bytes}
    (h : validate lib now certPem keyPem false = .ok (newCert, newKey)) :
    Loadable lib newCert newKey .api := by
  unfold validate at h
  cases hchain : allCertificates lib certPem "the certificate" with
  | error error => simp [hchain, bind, Except.bind] at h
  | ok chain =>
    obtain ⟨der, rest, rfl⟩ := exists_cons_of_ne_nil (allCertificates_ok hchain).2
    cases hparsed : lib.parseCertificate der with
    | error detail => simp [hchain, hparsed, parseError, bind, Except.bind] at h
    | ok parsed =>
      simp only [hchain, headD_cons, hparsed, parseError, bind, Except.bind] at h
      split at h
      · cases h
      split at h
      · cases h
      split at h
      · cases h
      cases hmatches : ensureKeyMatches lib keyPem parsed.subjectPki with
      | error error => simp [hmatches] at h
      | ok _ =>
        simp only [hmatches, Bool.false_eq_true, if_false, pure, Except.pure, Except.ok.injEq,
          Prod.mk.injEq] at h
        obtain ⟨rfl, rfl⟩ := h
        obtain ⟨key, hkey, hpublic⟩ := textKey_ok (ensureKeyMatches_ok.mp hmatches)
        exact ⟨⟨der :: rest, key⟩, serverConfig_ok.mpr ⟨der, rest, parsed,
          lib.certificates_pem _, hkey, rfl, hparsed, hpublic⟩⟩

end Opening

/-- The environment lets everything succeed. -/
def allFine : Chance := ⟨none, 0, []⟩

/-- A new process, with what is on the disk. -/
def CertState.restarted (s : CertState) : CertState :=
  .opened s.files s.archives none false

/-- What is known of files: what they contain, or that they are not there. -/
abbrev Facts := List (CertPath × Option Bytes)

/-- These files have these contents. -/
def Knows (facts : Facts) (s : CertState) : Prop :=
  ∀ fact ∈ facts, s.files fact.1 = fact.2

def liveFacts (pair : Pair) (certPem keyPem : Bytes) : Facts :=
  [(.live pair .cert, some certPem), (.live pair .key, some keyPem)]

def stagedFacts (pair : Pair) (certPem keyPem : Bytes) : Facts :=
  [(.staged pair .cert, some certPem), (.staged pair .key, some keyPem)]

def archivedFacts (pair : Pair) (name : ArchiveName) (certPem keyPem : Bytes) :
    Facts :=
  [(.archived pair name .cert, some certPem), (.archived pair name .key, some keyPem)]

/-- The files an access may change. -/
def CertAccess.touches : {β : Type} → CertAccess β → CertPath → Prop
  | _, .write target _, path => path = target
  | _, .rename source target, path => path = source ∨ path = target
  | _, .copy _ target, path => path = target
  | _, .discard target, path => path = target
  | _, .removeArchive pair name, path => ∃ file, path = .archived pair name file
  | _, _, _ => False

lemma setFile_other {s : CertState} {path target : CertPath} {contents : Option Bytes}
    (h : path ≠ target) : (s.setFile target contents).files path = s.files path :=
  Function.update_of_ne h _ _

@[simp] lemma setFile_same (s : CertState) (path : CertPath) (contents : Option Bytes) :
    (s.setFile path contents).files path = contents :=
  Function.update_self ..

lemma serve_untouched {β : Type} {access : CertAccess β} {b : β}
    (h : serve access i x s = some (b, t))
    (hpath : ¬ access.touches path) : t.files path = s.files path := by
  cases access with
  | write target text =>
    simp only [serve, attempt] at h
    split at h
    · cases h
      rfl
    · cases h
      exact setFile_other hpath
  | rename source target =>
    obtain ⟨hsource, htarget⟩ := not_or.mp hpath
    simp only [serve, attempt] at h
    repeat' split at h
    · cases h
      rfl
    · cases h
      rw [setFile_other hsource, setFile_other htarget]
    · cases h
      rfl
  | copy source target =>
    simp only [serve, attempt] at h
    repeat' split at h
    · cases h
      rfl
    · cases h
      exact setFile_other hpath
    · cases h
      rfl
  | discard target =>
    simp only [serve] at h
    split at h
    · cases h
      rfl
    · cases h
      exact setFile_other hpath
  | removeArchive pair name =>
    simp only [serve] at h
    split at h
    · cases h
      rfl
    · cases h
      cases path with
      | archived pair' name' file =>
        have hne : ¬ (pair' = pair ∧ name' = name) := by
          rintro ⟨rfl, rfl⟩
          exact hpath ⟨file, rfl⟩
        exact if_neg hne
      | _ => rfl
  | _ =>
    simp only [serve, attempt] at h
    try repeat' split at h
    all_goals cases h
    all_goals rfl

lemma Knows.mono (h : Knows facts s) (hsub : facts' ⊆ facts) : Knows facts' s :=
  fun fact hfact => h fact (hsub hfact)

lemma Knows.serve (h : Knows facts s)
    (hserve : serve access i x s = some (b, t)) (hother : ∀ fact ∈ facts, ¬ access.touches fact.1) :
    Knows facts t :=
  fun fact hfact => (serve_untouched hserve (hother fact hfact)).trans (h fact hfact)

/-- A staged file is renamed into its place, with this result. -/
def Moves (pair : Pair) (file : PairFile) (result : Except Bytes Unit)
    (l : Label CertAccess CertState) : Prop :=
  ∃ i s t, l = ⟨i, ⟨_, .rename (.staged pair file) (.live pair file)⟩, result, s, t⟩

/-- A pair and the texts that are in place before and after. -/
structure Replacing where
  pair : Pair
  oldCert : Bytes
  oldKey : Bytes
  newCert : Bytes
  newKey : Bytes

namespace Replacing

variable (w : Replacing)

def old : Facts := liveFacts w.pair w.oldCert w.oldKey

def new : Facts := liveFacts w.pair w.newCert w.newKey

def staged : Facts := stagedFacts w.pair w.newCert w.newKey

def archived : Option ArchiveName → Facts
  | some name => archivedFacts w.pair name w.oldCert w.oldKey
  | none => []

/-- The new certificate is in place with the old key, and the new key still staged. -/
def torn : Facts :=
  (.staged w.pair .key, some w.newKey) :: liveFacts w.pair w.newCert w.oldKey

/-- What a step leaves: only the rename of the certificate leaves the pair torn. -/
def Leaves (l : Label CertAccess CertState) : Prop :=
  (Moves w.pair .cert (.ok ()) l ∧ Knows w.torn l.after) ∨
    (¬ Moves w.pair .cert (.ok ()) l ∧ (Knows w.old l.after ∨ Knows w.new l.after))

/-- A part of the installation, where the rename of the key does not fail. -/
def Does {α : Type} (Q : α → CertState → Prop) (p : Prog CertAccess α) (s : CertState) : Prop :=
  Alone machine 0 (fun l => ∀ source, ¬ Moves w.pair .key (.error source) l) w.Leaves Q p s

/-- The accesses that leave the certificate in place and other files alone. -/
def Spares (facts : Facts) {β : Type} (access : CertAccess β) : Prop :=
  ¬ access.touches (.live w.pair .cert) ∧ ∀ fact ∈ facts, ¬ access.touches fact.1

variable {w} {α β : Type} {s : CertState} {facts more : Facts}

lemma leaves_whole
    (hother : ¬ access.touches (.live w.pair .cert)) (h : Knows w.old t ∨ Knows w.new t) :
    w.Leaves ⟨i, ⟨δ, access⟩, b, s, t⟩ := by
  refine .inr ⟨?_, h⟩
  rintro ⟨i', s', t', heq⟩
  cases heq
  exact hother (.inr rfl)

lemma Does.keeps (hp : p.All (w.Spares facts))
    (hwhole : w.old ⊆ facts ∨ w.new ⊆ facts) (hs : Knows facts s) :
    w.Does (fun _ => Knows facts) p s := by
  refine Alone.of_all ?_ hp hs
  intro δ access haccess s x b t hknows hserve _
  have hafter := Knows.serve hknows hserve haccess.2
  exact ⟨leaves_whole haccess.1 (hwhole.imp hafter.mono hafter.mono), hafter⟩

lemma Does.act {next : δ → Prog CertAccess α} (haccess : w.Spares facts access)
    (hwhole : w.old ⊆ facts ∨ w.new ⊆ facts) (hs : Knows facts s)
    (hnext : ∀ x b t, serve access 0 x s = some (b, t) → Knows facts t → w.Does Q (next b) t) :
    w.Does Q (.act access next) s := by
  intro x b t hserve _
  have hafter := Knows.serve hs hserve haccess.2
  exact ⟨leaves_whole haccess.1 (hwhole.imp hafter.mono hafter.mono), hnext x b t hserve hafter⟩

/-- What is known after an error, and after a result. -/
def Ends (onError : Facts) (onOk : α → Facts) (r : Except CertError α) (t : CertState) : Prop :=
  match r with
  | .error _ => Knows onError t
  | .ok a => Knows (onOk a) t

lemma Does.andThen {Q : Except CertError β → CertState → Prop} (hp : w.Does (Ends facts onOk) p s)
    (herror : ∀ error t, Knows facts t → Q (.error error) t)
    (hok : ∀ a t, Knows (onOk a) t → w.Does Q (k a) t) : w.Does Q (Certs.andThen p k) s := by
  refine Alone.bind (Alone.mono hp ?_)
  intro r t hr
  cases r with
  | error error => exact herror error t hr
  | ok a => exact hok a t hr

lemma Does.orUnstage (hp : w.Does (Ends facts onOk) p s)
    (hsub : more ⊆ facts) (hwhole : w.old ⊆ more ∨ w.new ⊆ more)
    (hspares : ∀ file, w.Spares more (.discard (.staged w.pair file))) :
    w.Does (Ends more onOk) (Certs.orUnstage w.pair p) s := by
  refine Alone.bind (Alone.mono hp ?_)
  intro r t hr
  cases r with
  | error error =>
    have hunstage : w.Does (fun _ => Knows more) (discardStaged w.pair) t :=
      Does.keeps ⟨hspares .cert, fun _ => ⟨hspares .key, fun _ => trivial⟩⟩ hwhole (hr.mono hsub)
    exact Alone.bind hunstage
  | ok a => exact hr

lemma write_does (hpath : w.Spares facts (.write path text))
    (hwhole : w.old ⊆ facts ∨ w.new ⊆ facts) (hs : Knows facts s) :
    w.Does (Ends facts fun _ => (path, some text) :: facts) (write path text) s := by
  refine Does.act ⟨id, fun _ _ => id⟩ hwhole hs fun x b t _ ht => ?_
  cases b with
  | error source => exact ht
  | ok _ =>
    refine Does.act hpath hwhole ht fun x b u (hserve : serve (.write path text) 0 x t = _) hu => ?_
    simp only [serve, attempt] at hserve
    split at hserve
    · cases hserve
      exact hu
    · cases hserve
      exact forall_mem_cons.mpr ⟨setFile_same .., hu⟩

lemma copyExisting_does
    (hsource : (source, some text) ∈ facts) (htarget : w.Spares facts (.copy source target))
    (hwhole : w.old ⊆ facts ∨ w.new ⊆ facts) (hs : Knows facts s) :
    w.Does (Ends facts fun _ => (target, some text) :: facts) (copyExisting source target) s := by
  refine Does.act ⟨id, fun _ _ => id⟩ hwhole hs fun x b t (hserve : serve (.exists source) 0 x s = _)
    ht => ?_
  have hb : b = true := by
    simp only [serve, hs _ hsource] at hserve
    cases hserve
    rfl
  subst hb
  refine Does.act htarget hwhole ht fun x b u (hserve : serve (.copy source target) 0 x t = _) hu => ?_
  simp only [serve, ht _ hsource, attempt] at hserve
  split at hserve
  · cases hserve
    exact hu
  · cases hserve
    exact forall_mem_cons.mpr ⟨setFile_same .., hu⟩

lemma stagePair_does (hs : Knows w.old s) :
    w.Does (Ends w.old fun _ => w.staged ++ w.old) (stagePair w.pair w.newCert w.newKey) s := by
  have hwhole : w.old ⊆ w.old ∨ w.new ⊆ w.old := .inl fun _ => id
  refine Does.act (by simp [Spares, CertAccess.touches, old, liveFacts]) hwhole hs fun _ _ t _ ht => ?_
  refine Does.orUnstage (Does.andThen (write_does ?_ hwhole ht) (fun _ _ => id) fun _ u hu => ?_)
    (fun _ => id) hwhole (by simp [Spares, CertAccess.touches, old, liveFacts])
  · simp [Spares, CertAccess.touches, old, liveFacts]
  · refine (write_does ?_ ?_ hu).mono ?_
    · simp [Spares, CertAccess.touches, old, liveFacts]
    · exact .inl fun _ => mem_cons_of_mem _
    · intro r v hr
      cases r with
      | error error => exact hr.mono fun _ => mem_cons_of_mem _
      | ok _ => exact hr

lemma unusedArchiveDir_does (hwhole : w.old ⊆ facts ∨ w.new ⊆ facts) (hs : Knows facts s) :
    w.Does (Ends facts fun _ => facts) (unusedArchiveDir w.pair) s := by
  have hfind : ∀ stamp left attempt,
      (findArchive w.pair stamp left attempt).All (w.Spares facts) := by
    intro stamp left
    induction left with
    | zero => exact fun _ => trivial
    | succ left ih =>
      intro attempt
      refine ⟨⟨id, fun _ _ => id⟩, fun answer => ?_⟩
      cases answer with
      | alreadyExists => exact ih (attempt + 1)
      | _ => trivial
  have hall : (unusedArchiveDir w.pair).All (w.Spares facts) := by
    refine ⟨⟨id, fun _ _ => id⟩, fun r => ?_⟩
    cases r with
    | error source => trivial
    | ok _ =>
      refine ⟨⟨id, fun _ _ => id⟩, fun r => ?_⟩
      cases r with
      | error source => trivial
      | ok retired =>
        show (if maxArchives ≤ retired then _ else _ : Prog CertAccess _).All _
        split
        · trivial
        · exact ⟨⟨id, fun _ _ => id⟩, fun stamp => hfind stamp _ _⟩
  refine (Does.keeps hall hwhole hs).mono ?_
  intro r t ht
  cases r with
  | error error => exact ht
  | ok _ => exact ht

lemma restrictExisting_spares (path : CertPath) (facts : Facts) :
    (restrictExisting path).All (w.Spares facts) := by
  refine ⟨⟨id, fun _ _ => id⟩, fun there => ?_⟩
  cases there with
  | false => trivial
  | true =>
    refine ⟨⟨id, fun _ _ => id⟩, fun r => ?_⟩
    cases r <;> trivial

lemma read_spares (path : CertPath) (facts : Facts) : (read path).All (w.Spares facts) := by
  refine ⟨⟨id, fun _ _ => id⟩, fun r => ?_⟩
  cases r <;> trivial

lemma archivePair_does (hs : Knows (w.staged ++ w.old) s) :
    w.Does (Ends (w.staged ++ w.old) fun name => w.archived (some name) ++ (w.staged ++ w.old))
      (archivePair w.pair) s := by
  have hwhole : w.old ⊆ w.staged ++ w.old ∨ w.new ⊆ w.staged ++ w.old :=
    .inl (subset_append_right _ _)
  refine Does.andThen (unusedArchiveDir_does hwhole hs) (fun _ _ => id) fun name t ht => ?_
  have hfill : w.Does (Ends (w.staged ++ w.old) fun _ =>
      w.archived (some name) ++ (w.staged ++ w.old)) (fillArchive w.pair name) t := by
    have hcert : (.live w.pair .cert, some w.oldCert) ∈ w.staged ++ w.old :=
      mem_append_right _ (mem_cons_self ..)
    have hkey : (.live w.pair .key, some w.oldKey) ∈ w.staged ++ w.old :=
      mem_append_right _ (mem_cons_of_mem _ (mem_cons_self ..))
    refine Does.andThen (copyExisting_does hcert ?_ hwhole ht) (fun _ _ => id) fun _ u hu => ?_
    · simp [Spares, CertAccess.touches, old, liveFacts, staged, stagedFacts]
    refine Does.andThen (copyExisting_does (mem_cons_of_mem _ hkey) ?_ ?_ hu)
      (fun _ _ hv => hv.mono ?_) fun _ v hv => ?_
    · simp [Spares, CertAccess.touches, old, liveFacts, staged, stagedFacts]
    · exact hwhole.imp (fun h _ hfact => mem_cons_of_mem _ (h hfact))
        (fun h _ hfact => mem_cons_of_mem _ (h hfact))
    · exact fun _ => mem_cons_of_mem _
    · refine (Does.keeps (restrictExisting_spares _ _) ?_ hv).mono ?_
      · exact hwhole.imp (fun h _ hfact => mem_cons_of_mem _ (mem_cons_of_mem _ (h hfact)))
          (fun h _ hfact => mem_cons_of_mem _ (mem_cons_of_mem _ (h hfact)))
      · intro r z hz
        cases r with
        | error error =>
          exact hz.mono fun _ hfact => mem_cons_of_mem _ (mem_cons_of_mem _ hfact)
        | ok _ => exact hz.mono (List.Perm.subset (List.Perm.swap ..))
  refine Alone.bind (hfill.mono ?_)
  intro r u hr
  cases r with
  | error error =>
    refine Does.act ?_ hwhole hr fun _ _ _ _ hv => hv
    simp [Spares, CertAccess.touches, old, liveFacts, staged, stagedFacts]
  | ok _ => exact hr

lemma archiveExisting_does (hs : Knows (w.staged ++ w.old) s) :
    w.Does (Ends w.old fun archive => w.archived archive ++ (w.staged ++ w.old))
      (archiveExisting w.pair) s := by
  have hwhole : w.old ⊆ w.staged ++ w.old ∨ w.new ⊆ w.staged ++ w.old :=
    .inl (subset_append_right _ _)
  have hany : (anyExists w.pair).All (w.Spares (w.staged ++ w.old)) := by
    refine ⟨⟨id, fun _ _ => id⟩, fun there => ?_⟩
    cases there with
    | false => exact ⟨⟨id, fun _ _ => id⟩, fun _ => trivial⟩
    | true => trivial
  refine Alone.bind ((Does.keeps hany hwhole hs).mono fun there t ht => ?_)
  cases there with
  | false => exact ht
  | true =>
    refine Does.orUnstage (Does.andThen (archivePair_does ht) (fun _ _ => id) fun _ _ hu => hu)
      (subset_append_right _ _) (.inl fun _ => id) ?_
    simp [Spares, CertAccess.touches, old, liveFacts]

lemma commitPair_does (hs : Knows (w.archived archive ++ (w.staged ++ w.old)) s) :
    w.Does (Ends (w.archived archive ++ w.old) fun _ => w.new) (commitPair w.pair) s := by
  have hstaged := hs.mono (subset_append_right _ _)
  have hcert : s.files (.staged w.pair .cert) = some w.newCert :=
    hstaged (.staged w.pair .cert, _) (mem_cons_self ..)
  have hkeep : Knows (w.archived archive ++ w.old) s :=
    hs.mono (append_subset.mpr ⟨subset_append_left _ _,
      fun _ h => mem_append_right _ (mem_append_right _ h)⟩)
  have hrename : w.Does (Ends (w.archived archive ++ w.old) fun _ => w.torn)
      (rename (.staged w.pair .cert) (.live w.pair .cert)) s := by
    intro x b t (hserve : serve (.rename (.staged w.pair .cert) (.live w.pair .cert)) 0 x s = _) _
    simp only [serve, hcert, attempt] at hserve
    split at hserve
    · cases hserve
      refine ⟨.inr ⟨?_, .inl (hkeep.mono (subset_append_right _ _))⟩, hkeep⟩
      rintro ⟨i, s', t', heq⟩
      cases heq
    · cases hserve
      have htorn : Knows w.torn ((s.setFile (.live w.pair .cert) (some w.newCert)).setFile
          (.staged w.pair .cert) none) := by
        intro fact hfact
        simp only [torn, liveFacts, mem_cons, not_mem_nil, or_false] at hfact
        obtain rfl | rfl | rfl := hfact
        · rw [setFile_other (by simp), setFile_other (by simp)]
          exact hstaged (.staged w.pair .key, _) (mem_cons_of_mem _ (mem_cons_self ..))
        · rw [setFile_other (by simp), setFile_same]
        · rw [setFile_other (by simp), setFile_other (by simp)]
          exact hkeep (.live w.pair .key, _)
            (mem_append_right _ (mem_cons_of_mem _ (mem_cons_self ..)))
      exact ⟨.inl ⟨⟨_, _, _, rfl⟩, htorn⟩, htorn⟩
  refine Does.andThen (Does.orUnstage hrename (fun _ => id)
    (.inl (subset_append_right _ _)) ?_) (fun _ _ => id) fun _ t ht => ?_
  · intro file
    cases archive <;>
      simp [Spares, CertAccess.touches, old, liveFacts, archived, archivedFacts]
  · intro x b u (hserve : serve (.rename (.staged w.pair .key) (.live w.pair .key)) 0 x t = _) hkey
    simp only [serve, ht (.staged w.pair .key, _) (mem_cons_self ..), attempt] at hserve
    split at hserve
    · cases hserve
      exact absurd ⟨_, _, _, rfl⟩ (hkey _)
    · cases hserve
      have hnew : Knows w.new ((t.setFile (.live w.pair .key) (some w.newKey)).setFile
          (.staged w.pair .key) none) := by
        intro fact hfact
        simp only [new, liveFacts, mem_cons, not_mem_nil, or_false] at hfact
        obtain rfl | rfl := hfact
        · rw [setFile_other (by simp), setFile_other (by simp)]
          exact ht (.live w.pair .cert, _) (mem_cons_of_mem _ (mem_cons_self ..))
        · rw [setFile_other (by simp), setFile_same]
      refine ⟨.inr ⟨?_, .inr hnew⟩, hnew⟩
      rintro ⟨i, s', t', heq⟩
      cases heq

lemma copyExisting_same (hsource : (source, some text) ∈ facts)
    (htarget : ∀ fact ∈ facts, fact.1 = target → fact.2 = some text) (hold : w.old ⊆ facts)
    (hs : Knows facts s) : w.Does (fun _ => Knows facts) (copyExisting source target) s := by
  refine Does.act ⟨id, fun _ _ => id⟩ (.inl hold) hs fun x there t _ ht => ?_
  cases there with
  | false => exact ht
  | true =>
    intro x b u (hserve : serve (.copy source target) 0 x t = _) _
    have hafter : Knows facts u := by
      intro fact hfact
      simp only [serve, ht _ hsource, attempt] at hserve
      split at hserve
      · cases hserve
        exact ht fact hfact
      · cases hserve
        by_cases hpath : fact.1 = target
        · rw [hpath, setFile_same, htarget fact hfact hpath]
        · rw [setFile_other hpath]
          exact ht fact hfact
    refine ⟨.inr ⟨?_, .inl (hafter.mono hold)⟩, ?_⟩
    · rintro ⟨i, s', t', heq⟩
      cases heq
    · cases b <;> exact hafter

lemma restoreFrom_does (hs : Knows (w.archived archive ++ w.old) s) :
    w.Does (fun _ => Knows w.old) (restoreFrom w.pair archive) s := by
  cases archive with
  | none => exact hs
  | some name =>
    have hold : w.old ⊆ w.archived (some name) ++ w.old := subset_append_right _ _
    have hunstage : (discardStaged w.pair).All (w.Spares (w.archived (some name) ++ w.old)) := by
      refine ⟨?_, fun _ => ⟨?_, fun _ => trivial⟩⟩ <;>
        simp [Spares, CertAccess.touches, old, liveFacts, archived, archivedFacts]
    refine Alone.bind ((Does.keeps hunstage (.inl hold) hs).mono fun _ t ht => ?_)
    refine Alone.bind ((copyExisting_same (mem_cons_self ..) ?_ hold ht).mono fun _ u hu => ?_)
    · simp [old, liveFacts]
    refine Alone.bind ((copyExisting_same (mem_cons_of_mem _ (mem_cons_self ..)) ?_ hold
      hu).mono fun _ v hv => hv.mono hold)
    simp [old, liveFacts]

/-- What is left when an installation ends. -/
def Whole (w : Replacing) (t : CertState) : Prop := Knows w.old t ∨ Knows w.new t

lemma Does.whole (hp : p.All fun access => ∀ file, ¬ access.touches
    (.live w.pair file)) (hs : w.Whole s) : w.Does (fun _ => w.Whole) p s := by
  have hspares : p.All (w.Spares w.old) ∧ p.All (w.Spares w.new) := by
    constructor
    all_goals
      refine hp.mono fun access h => ⟨h .cert, ?_⟩
      simp [old, new, liveFacts, h]
  cases hs with
  | inl hold => exact (Does.keeps hspares.1 (.inl fun _ => id) hold).mono fun _ _ => .inl
  | inr hnew => exact (Does.keeps hspares.2 (.inr fun _ => id) hnew).mono fun _ _ => .inr

lemma Does.commit
    (hs : Knows (w.archived archive ++ (w.staged ++ w.old)) s) {after : CertError → Prog CertAccess α}
    (hk : ∀ error, k (.error error) = restoreFrom w.pair archive >>= fun _ => after error)
    (hafter : ∀ error, (after error).All fun access => ∀ file, ¬ access.touches (.live w.pair file))
    (hok : (k (.ok ())).All fun access => ∀ file, ¬ access.touches (.live w.pair file)) :
    w.Does (fun _ => w.Whole) (commitPair w.pair >>= k) s := by
  refine Alone.bind ((commitPair_does hs).mono ?_)
  intro r t hr
  cases r with
  | error error =>
    rw [hk]
    exact Alone.bind ((restoreFrom_does hr).mono fun _ u hu => Does.whole (hafter error) (.inl hu))
  | ok _ => exact Does.whole hok (.inr hr)

lemma installLocked_does (hpair : w.pair = .ca)
    (hcert : w.newCert = handle.certPem) (hs : Knows w.old s) :
    w.Does (fun _ => w.Whole) (installLocked handle w.newKey) s := by
  obtain ⟨pair, oldCert, oldKey, newCert, newKey⟩ := w
  subst hpair hcert
  refine Does.andThen (stagePair_does hs) (fun _ _ => .inl) fun _ t ht => ?_
  refine Does.andThen (archiveExisting_does ht) (fun _ _ => .inl) fun archive u hu => ?_
  refine Does.commit hu (fun _ => rfl) (fun _ => trivial) ?_
  exact ⟨fun _ => id, fun _ => ⟨fun _ => id, fun _ => trivial⟩⟩

lemma restoreMarker_other (previous : Except CertError Bytes) :
    (restoreMarker previous).All fun access => ∀ file, ¬ access.touches (.live w.pair file) := by
  cases previous with
  | error error => exact ⟨nofun, fun _ => trivial⟩
  | ok text =>
    refine ⟨fun _ => id, fun r => ?_⟩
    cases r with
    | error source => trivial
    | ok _ =>
      refine ⟨nofun, fun r => ?_⟩
      cases r <;> trivial

lemma installApiLocked_does (hpair : w.pair = .api) (hs : Knows w.old s) :
    w.Does (fun _ => w.Whole) (installApiLocked w.newCert w.newKey fingerprint) s := by
  obtain ⟨pair, oldCert, oldKey, newCert, newKey⟩ := w
  subst hpair
  refine Does.andThen (stagePair_does hs) (fun _ _ => .inl) fun _ t ht => ?_
  refine Does.andThen (archiveExisting_does ht) (fun _ _ => .inl) fun archive u hu => ?_
  have hold := subset_append_of_subset_right
    (archived ⟨.api, oldCert, oldKey, newCert, newKey⟩ archive)
    (subset_append_right (stagedFacts .api newCert newKey) (liveFacts .api oldCert oldKey))
  refine Alone.bind ((Does.keeps (read_spares _ _) (.inl hold) hu).mono fun previous v hv => ?_)
  refine Alone.bind ((Does.orUnstage (write_does ?_ (.inl hold) hv) hold (.inl fun _ => id) ?_).mono ?_)
  · cases archive <;>
      simp [Spares, CertAccess.touches, old, liveFacts, staged, stagedFacts, archived, archivedFacts]
  · simp [Spares, CertAccess.touches, liveFacts]
  · intro r z hr
    cases r with
    | error error => exact .inl hr
    | ok _ =>
      refine Does.commit (hr.mono fun _ => mem_cons_of_mem _) (fun _ => rfl) (fun _ => ?_) ?_
      · exact (restoreMarker_other previous).bind fun _ => trivial
      · exact ⟨fun _ => id, fun _ => trivial⟩

lemma locked_does (hs : Knows w.old s) (hp : ∀ t, Knows w.old t → w.Does (fun _ => w.Whole) p t) :
    w.Does (fun _ _ => True) (do
      CertAccess.lock w.pair
      let result ← p
      CertAccess.unlock w.pair
      pure result : Prog CertAccess α) s := by
  refine Does.act ⟨id, fun _ _ => id⟩ (.inl fun _ => id) hs fun _ _ t _ ht => ?_
  show w.Does _ (p >>= fun result => .act (.unlock w.pair) fun _ => .ret result) t
  refine Alone.bind ((hp t ht).mono fun result u hu => ?_)
  have hunlock : (Prog.act (CertAccess.unlock w.pair) fun _ => Prog.ret result).All fun access =>
      ∀ file, ¬ access.touches (.live w.pair file) := ⟨fun _ => id, fun _ => trivial⟩
  exact (Does.whole hunlock hu).mono fun _ _ _ => trivial

end Replacing

section Installing

variable (lib : CertLibrary)

def install (certPem keyPem : Bytes) : Pair → Prog CertAccess Unit
  | .ca => do
    let _ ← installCa lib certPem keyPem
    pure ()
  | .api => do
    let _ ← installApiPair lib certPem keyPem
    pure ()

/-- The text of the certificate that is written. -/
def writtenCert (certPem keyPem : Bytes) : Pair → Bytes
  | .ca => match CaHandle.load lib certPem keyPem with
    | .ok handle => handle.certPem
    | .error _ => certPem
  | .api => certPem

variable {lib} {s : CertState} {pair : Pair} {oldCert oldKey newCert newKey : Bytes}

lemma install_does (hs : Knows (liveFacts pair oldCert oldKey) s) :
    (Replacing.mk pair oldCert oldKey (writtenCert lib newCert newKey pair) newKey).Does
      (fun _ _ => True) (install lib newCert newKey pair) s := by
  cases pair with
  | ca =>
    simp only [install, installCa, writtenCert]
    cases hload : CaHandle.load lib newCert newKey with
    | error error => trivial
    | ok handle =>
      exact Alone.bind (Replacing.locked_does (w := ⟨.ca, oldCert, oldKey, handle.certPem, newKey⟩) hs
        fun t ht => Replacing.installLocked_does rfl rfl ht)
  | api =>
    simp only [install, installApiPair]
    cases hfirst : firstCertificate lib newCert "the certificate" with
    | error error => trivial
    | ok der =>
      exact Alone.bind (Replacing.locked_does (w := ⟨.api, oldCert, oldKey, newCert, newKey⟩) hs
        fun t ht => Replacing.installApiLocked_does rfl ht)

end Installing

section Reopening

variable {lib : CertLibrary} {s : CertState} {pair : Pair} {certPem keyPem : Bytes}

lemma loadPair_performs (h : Knows (liveFacts pair certPem keyPem) s) :
    (loadPair pair).perform machine 0 allFine s = some (.ok (some (certPem, keyPem)), s) := by
  have hcert : s.files (.live pair .cert) = some certPem := h (_, _) (mem_cons_self ..)
  have hkey : s.files (.live pair .key) = some keyPem :=
    h (_, _) (mem_cons_of_mem _ (mem_cons_self ..))
  simp [loadPair, completeInterrupted, interrupted, readPair, Certs.andThen, read, onPath,
    Prog.perform, machine, serve, attempt, allFine, hcert, hkey]

lemma andThen_performs {r : Except CertError α} (h : p.perform machine 0 allFine s = some (r, t)) :
    (andThen p k).perform machine 0 allFine s = match r with
      | .error error => some (.error error, t)
      | .ok a => (k a).perform machine 0 allFine t := by
  rw [andThen, Prog.perform_bind h]
  cases r <;> rfl

variable (lib) in
lemma openStore_performs (h : Knows (liveFacts .ca certPem keyPem) s) :
    ∃ t, (openStore lib).perform machine 0 allFine s =
      some ((CaHandle.load lib certPem keyPem).map some, t) := by
  rw [openStore, andThen_performs (loadPair_performs h)]
  dsimp only
  cases CaHandle.load lib certPem keyPem with
  | error error => exact ⟨s, rfl⟩
  | ok handle => exact ⟨_, rfl⟩

lemma loadOrWrite_performs (h : Knows (liveFacts .api certPem keyPem) s)
    (generated : Except CertError (Bytes × Bytes)) :
    (loadOrWrite generated).perform machine 0 allFine s = some (.ok (certPem, keyPem), s) := by
  unfold loadOrWrite
  rw [andThen_performs (loadPair_performs h)]
  rfl

lemma loadOrGenerate_performs (h : Knows (liveFacts .api certPem keyPem) s)
    (generated : Except CertError (Bytes × Bytes)) (stagedKey : Bytes)
    (hconfig : serverConfig lib certPem keyPem = .ok config ∨
      (∀ other, serverConfig lib certPem keyPem ≠ .ok other) ∧
        s.files (.staged .api .key) = some stagedKey ∧
        serverConfig lib certPem stagedKey = .ok config) :
    ∃ t, (loadOrGenerate lib generated).perform machine 0 allFine s = some (.ok config, t) := by
  have hof : ∃ t, (configOf lib certPem keyPem).perform machine 0 allFine s = some (.ok config, t) := by
    unfold configOf
    obtain hconfig | ⟨hno, hstaged, hconfig⟩ := hconfig
    · rw [hconfig]
      exact ⟨s, rfl⟩
    · cases hown : serverConfig lib certPem keyPem with
      | ok other => exact absurd hown (hno other)
      | error error =>
        simp [completeInterruptedReplacement, read, rename, onPath, Prog.perform, machine, serve,
          attempt, allFine, hstaged, hconfig]
  obtain ⟨t, ht⟩ := hof
  rw [loadOrGenerate, andThen_performs (loadOrWrite_performs h generated)]
  dsimp only
  rw [andThen_performs ht]
  exact ⟨_, rfl⟩

lemma reopen_whole (h : Knows (liveFacts pair certPem keyPem) s)
    (hload : Loadable lib certPem keyPem pair) (generated : Except CertError (Bytes × Bytes)) :
    ∃ opened t, (reopen lib generated pair).perform machine 0 allFine s = some (.ok opened, t) ∧
      LoadsTo lib certPem keyPem opened := by
  cases pair with
  | ca =>
    obtain ⟨handle, hhandle⟩ := hload
    obtain ⟨t, ht⟩ := openStore_performs lib h
    rw [hhandle] at ht
    exact ⟨.authority (some handle), t, by rw [reopen, andThen_performs ht]; rfl, hhandle⟩
  | api =>
    obtain ⟨config, hconfig⟩ := hload
    obtain ⟨t, ht⟩ := loadOrGenerate_performs h generated [] (.inl hconfig)
    exact ⟨.server config, t, by rw [reopen, andThen_performs ht]; rfl, hconfig⟩

end Reopening

section Surviving

variable {lib : CertLibrary} {s : CertState} {pair : Pair} {oldCert oldKey newCert newKey : Bytes}

/-- The next process opens a pair that matches and is the old one or the new one. -/
def Survives (lib : CertLibrary) (generated : Except CertError (Bytes × Bytes)) (pair : Pair)
    (oldCert oldKey newCert newKey : Bytes) (s : CertState) : Prop :=
  ∃ opened t certPem keyPem,
    (reopen lib generated pair).perform machine 0 allFine s.restarted = some (.ok opened, t) ∧
      LoadsTo lib certPem keyPem opened ∧
      (SamePair lib certPem keyPem oldCert oldKey ∨ SamePair lib certPem keyPem newCert newKey)

variable {generated : Except CertError (Bytes × Bytes)}

lemma Survives.of_whole
    (h : Knows (liveFacts pair certPem keyPem) s) (hload : Loadable lib certPem keyPem pair)
    (hsame : SamePair lib certPem keyPem oldCert oldKey ∨ SamePair lib certPem keyPem newCert newKey) :
    Survives lib generated pair oldCert oldKey newCert newKey s := by
  obtain ⟨opened, t, hopen, hloads⟩ := reopen_whole (s := s.restarted) h hload generated
  exact ⟨opened, t, certPem, keyPem, hopen, hloads, hsame⟩

lemma Survives.of_torn (h : Knows (Replacing.torn ⟨.api, oldCert, oldKey, newCert, newKey⟩) s)
    (hnew : Loadable lib newCert newKey .api) :
    Survives lib generated .api oldCert oldKey newCert newKey s := by
  obtain ⟨hstaged, hlive⟩ := forall_mem_cons.mp h
  obtain ⟨config, hconfig⟩ := hnew
  by_cases hown : ∃ other, serverConfig lib newCert oldKey = .ok other
  · obtain ⟨other, hother⟩ := hown
    exact .of_whole hlive ⟨other, hother⟩ (.inr ⟨fun _ => rfl, serverConfig_same hother hconfig⟩)
  · obtain ⟨t, ht⟩ := loadOrGenerate_performs (s := s.restarted) hlive generated newKey
      (.inr ⟨not_exists.mp hown, hstaged, hconfig⟩)
    exact ⟨.server config, t, newCert, newKey, by rw [reopen, andThen_performs ht]; rfl, hconfig,
      .inr (.refl ..)⟩

lemma survives_torn
    (h : Knows (liveFacts .ca handle.certPem oldKey) s) (hold : Loadable lib oldCert oldKey .ca)
    (hload : CaHandle.load lib newCert newKey = .ok handle) :
    Survives lib generated .ca oldCert oldKey newCert newKey s ↔
      textKey lib oldKey = textKey lib newKey := by
  obtain ⟨oldHandle, hold⟩ := hold
  rw [← CaHandle.load_other hload hold]
  constructor
  · rintro ⟨opened, t, certPem, keyPem, hopen, -⟩
    obtain ⟨u, hu⟩ := openStore_performs lib (s := s.restarted) h
    cases hother : CaHandle.load lib handle.certPem oldKey with
    | ok other => exact ⟨other, rfl⟩
    | error error =>
      rw [hother] at hu
      rw [reopen, andThen_performs hu] at hopen
      cases hopen
  · rintro ⟨other, hother⟩
    refine .of_whole h ⟨other, hother⟩ (.inr ⟨(SamePair.written hload).1, ?_⟩)
    exact (CaHandle.load_other hload hold).mp ⟨other, hother⟩

lemma install_loadable (hnew : pair = .api → ∃ now certPem keyPem,
      validate lib now certPem keyPem false = .ok (newCert, newKey))
    (hrun : Pool.Run machine ⟨s, [install lib newCert newKey pair]⟩ labels c) (hne : labels ≠ []) :
    Loadable lib (writtenCert lib newCert newKey pair) newKey pair ∧
      SamePair lib (writtenCert lib newCert newKey pair) newKey newCert newKey := by
  cases pair with
  | api =>
    obtain ⟨now, certPem, keyPem, hvalid⟩ := hnew rfl
    exact ⟨serverConfig_validated hvalid, .refl ..⟩
  | ca =>
    simp only [install, installCa, writtenCert] at hrun ⊢
    cases hload : CaHandle.load lib newCert newKey with
    | ok handle => exact ⟨⟨handle, CaHandle.load_again hload⟩, SamePair.written hload⟩
    | error error =>
      simp only [hload] at hrun
      obtain ⟨hnone, -⟩ := hrun.alone (C := fun _ => True) (Φ := fun _ => False)
        (Q := fun _ _ => True) (fun _ _ => trivial) trivial
      obtain ⟨l, rest, rfl⟩ := exists_cons_of_ne_nil hne
      exact (hnone l (mem_cons_self ..)).elim

/-- **Replacing a pair.** A pair is installed over one that can be opened, and the
process stops after any number of steps, none of which is a failed rename of the
key. The next process opens the old pair or the new one, unless the last step was the
rename of the certificate of an authority whose key is another one. -/
theorem replacement_survives {generated : Except CertError (Bytes × Bytes)}
    {labels : List (Label CertAccess CertState)} {c : Pool CertAccess CertState Unit}
    (hlive : Knows (liveFacts pair oldCert oldKey) s) (hold : Loadable lib oldCert oldKey pair)
    (hnew : pair = .api → ∃ now certPem keyPem,
      validate lib now certPem keyPem false = .ok (newCert, newKey))
    (hrun : Pool.Run machine ⟨s, [install lib newCert newKey pair]⟩ labels c)
    (hkey : ∀ l ∈ labels, ∀ source, ¬ Moves pair .key (.error source) l) :
    Survives lib generated pair oldCert oldKey newCert newKey c.state ↔
      ¬ (pair = .ca ∧ (∃ l, labels.getLast? = some l ∧ Moves .ca .cert (.ok ()) l) ∧
        textKey lib oldKey ≠ textKey lib newKey) := by
  obtain ⟨hleaves, -⟩ := hrun.alone hkey (install_does hlive)
  have hstate := hrun.state_eq
  cases hlast : labels.getLast? with
  | none =>
    rw [hlast] at hstate
    refine iff_of_true ?_ (by rintro ⟨-, ⟨l, h, -⟩, -⟩; cases h)
    rw [hstate]
    exact .of_whole hlive hold (.inl (.refl ..))
  | some l =>
    rw [hlast] at hstate
    have hl := mem_of_getLast? hlast
    obtain ⟨hload, hsame⟩ := install_loadable hnew hrun (ne_nil_of_mem hl)
    have hafter : c.state = l.after := hstate
    rw [hafter]
    obtain ⟨hmoves, htorn⟩ | ⟨hmoves, hwhole⟩ := hleaves l hl
    · cases pair with
      | ca =>
        cases hhandle : CaHandle.load lib newCert newKey with
        | error error =>
          simp only [writtenCert, hhandle, Loadable] at hload
          exact absurd hload (by simp)
        | ok handle =>
          simp only [writtenCert, hhandle] at htorn
          rw [survives_torn (forall_mem_cons.mp htorn).2 hold hhandle]
          constructor
          · rintro hsame ⟨-, -, hne⟩
            exact hne hsame
          · intro hnot
            exact not_not.mp fun hne => hnot ⟨rfl, ⟨l, rfl, hmoves⟩, hne⟩
      | api =>
        exact iff_of_true (Survives.of_torn htorn hload) (by rintro ⟨h, -⟩; cases h)
    · refine iff_of_true ?_ ?_
      · cases hwhole with
        | inl h => exact .of_whole h hold (.inl (.refl ..))
        | inr h => exact .of_whole h hload (.inr hsame)
      · rintro ⟨rfl, ⟨l', hl', hmoves'⟩, -⟩
        cases hl'
        exact hmoves hmoves'

end Surviving

def moved : Label CertAccess CertState → Option (PairFile × Bool)
  | ⟨_, ⟨_, .rename _ (.live _ file)⟩, .ok _, _, _⟩ => some (file, true)
  | ⟨_, ⟨_, .rename _ (.live _ file)⟩, .error _, _, _⟩ => some (file, false)
  | _ => none

lemma Moves.moved (h : Moves pair file result l) : moved l ≠ none := by
  obtain ⟨i, s, t, rfl⟩ := h
  cases result <;> nofun

def replacingStart : Pool CertAccess CertState Unit :=
  ⟨sampleStore, [install plainLibrary (joinDers [newKey]) newKey .ca]⟩

/-- The process stops after the new pair was staged and the old one archived. -/
theorem replacement_survives_staged : ∃ labels c,
    Pool.Run machine replacingStart labels c ∧ labels.length = 17 ∧
      Survives plainLibrary (.error .noCa) .ca (joinDers [oldKey]) oldKey (joinDers [newKey]) newKey
        c.state := by
  obtain ⟨⟨labels, c⟩, hexec, hr⟩ := (Option.any_eq_true _ _).mp
    (show (Pool.exec machine replacingStart (List.replicate 17 (0, allFine))).any
      (fun (labels, _) => decide (labels.length = 17) && labels.all fun l => (moved l).isNone) = true
      by decide +kernel)
  obtain ⟨hlength, hmoved⟩ := Bool.and_eq_true_iff.mp hr
  have hnot : ∀ l ∈ labels, moved l = none := by simpa using hmoved
  refine ⟨labels, c, Pool.run_of_exec hexec, of_decide_eq_true hlength, ?_⟩
  have hlive : Knows (liveFacts .ca (joinDers [oldKey]) oldKey) sampleStore := by
    intro fact hfact
    simp only [liveFacts, mem_cons, not_mem_nil, or_false] at hfact
    obtain rfl | rfl := hfact <;> rfl
  refine (replacement_survives hlive ⟨sampleHandle oldKey, rfl⟩ nofun (Pool.run_of_exec hexec) ?_).mpr ?_
  · exact fun l hl source hmoves => hmoves.moved (hnot l hl)
  · rintro ⟨-, ⟨l, hlast, hmoves⟩, -⟩
    exact hmoves.moved (hnot l (mem_of_getLast? hlast))

/-- The key found does not belong to the certificate. -/
def mismatched {α : Type} : Except CertError α → Bool
  | .error .keyMismatch => true
  | _ => false

/-- **A torn authority.** One step later, the store does not open. -/
theorem authority_torn : ∃ labels c t, Pool.Run machine replacingStart labels c ∧
      (reopen plainLibrary (.error .noCa) .ca).perform machine 0 allFine c.state.restarted =
        some (.error .keyMismatch, t) := by
  obtain ⟨⟨labels, c⟩, hexec, hr⟩ := (Option.any_eq_true _ _).mp
    (show (Pool.exec machine replacingStart (List.replicate 18 (0, allFine))).any
      (fun p => ((reopen plainLibrary (.error .noCa) .ca).perform machine 0 allFine
        p.2.state.restarted).any fun r => mismatched r.1) = true by decide +kernel)
  obtain ⟨⟨r, t⟩, hopen, hr⟩ := (Option.any_eq_true _ _).mp hr
  unfold mismatched at hr
  split at hr
  next heq =>
    cases heq
    exact ⟨labels, c, t, Pool.run_of_exec hexec, hopen⟩
  · cases hr

end FastAdHunter.Certs
