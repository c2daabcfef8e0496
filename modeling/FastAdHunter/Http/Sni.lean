import FastAdHunter.Lib.Bytes
import FastAdHunter.Lib.Scan

/-!
# The server name of a ClientHello

The first bytes of a connection are scanned for a ClientHello and the server name
in it, over and over as more arrive, until the scan has an answer. The message can
be split over several handshake records; a cursor reads across their boundaries,
and only records that are complete are read.
-/

namespace FastAdHunter.Http.Sni

open Lib
open List hiding count next take

def maxNameLen : Nat := 253
def maxLabelLen : Nat := 63

/-- One byte of a host name, given how long its label is so far and whether it is
the last: its lower case and the length of the label after it. -/
def normalizeByte (label : Nat) (isLast : Bool) (byte : UInt8) : Option (UInt8 × Nat) :=
  let c := toLower byte
  if c = ch '.' then
    if label = 0 ∨ isLast then none else some (c, 0)
  else if c = ch '-' then
    if label = 0 ∨ isLast then none else some (c, label + 1)
  else if isAsciiLowercase c || isAsciiDigit c || c == ch '_' then
    if maxLabelLen < label + 1 then none else some (c, label + 1)
  else none

def normalizeFrom (label : Nat) : Bytes → Option Bytes
  | [] => some []
  | byte :: rest =>
    (normalizeByte label rest.isEmpty byte).bind fun r =>
      (normalizeFrom r.2 rest).map fun host => r.1 :: host

def normalizeHost (raw : Bytes) : Option Bytes :=
  if raw.isEmpty ∨ maxNameLen < raw.length then none else normalizeFrom 0 raw

def maxHelloBytes : Nat := 16 * 1024
def recordHandshake : UInt8 := 0x16
def recordHeader : Nat := 5

def u16 (hi lo : UInt8) : Nat := hi.toNat * 256 + lo.toNat

/-- A cursor over the bytes that have arrived, within one of their records. -/
structure Records where
  buf : Bytes
  recordEnd : Nat
  nextRecord : Nat
  pos : Nat
  read : Nat
  truncated : Bool
  pos_le : pos ≤ recordEnd
  end_le : recordEnd ≤ buf.length
  next_eq : nextRecord = recordEnd

namespace Records

def new (buf : Bytes) : Records :=
  ⟨buf, 0, 0, 0, 0, false, le_rfl, Nat.zero_le _, rfl⟩

/-- The cursor at the start of its next record. -/
def enter (r : Records) (body stop : Nat) (hbody : body ≤ stop) (hstop : stop ≤ r.buf.length) :
    Records :=
  ⟨r.buf, stop, stop, body, r.read, r.truncated, hbody, hstop, rfl⟩

def cutOff (r : Records) : Records :=
  { r with truncated := true }

/-- Go to the next record, when it is a handshake record and complete. -/
def advanceRecord (r : Records) : Bool × Records :=
  let start := r.nextRecord
  if hheader : r.buf.length < start + recordHeader then (false, r.cutOff)
  else
    have hlen : start + 5 ≤ r.buf.length := Nat.le_of_not_lt hheader
    if r.buf[start] ≠ recordHandshake then (false, r)
    else
      let len := u16 r.buf[start + 3] r.buf[start + 4]
      let body := start + recordHeader
      if hend : r.buf.length < body + len then (false, r.cutOff)
      else (true, r.enter body (body + len) (Nat.le_add_right _ _) (Nat.le_of_not_lt hend))

/-- Go to the next record as long as this one is at its end. Every record is
longer than nothing, so the bytes that are left bound how often. -/
def fillWithin : Nat → Records → Bool × Records
  | 0, r => (false, r)
  | n + 1, r =>
    if r.pos = r.recordEnd then
      match r.advanceRecord with
      | (true, r) => fillWithin n r
      | (false, r) => (false, r)
    else (true, r)

def fill (r : Records) : Bool × Records :=
  fillWithin (r.buf.length + 1) r

/-- The cursor so many bytes further in its record. -/
def forward (r : Records) (step : Nat) (h : step ≤ r.recordEnd - r.pos) : Records :=
  { r with
    pos := r.pos + step
    read := r.read + step
    pos_le := Nat.add_le_of_le_sub' r.pos_le h }

/-- Read so many bytes, record by record. Each round reads some, so their number
bounds how often. -/
def takeWithin : Nat → Nat → Records → Option Bytes × Records
  | _, 0, r => (some [], r)
  | 0, _ + 1, r => (none, r)
  | n + 1, count + 1, r =>
    match r.fill with
    | (false, r) => (none, r)
    | (true, r) =>
      let step := min (r.recordEnd - r.pos) (count + 1)
      let chunk := (r.buf.drop r.pos).take step
      match takeWithin n (count + 1 - step) (r.forward step (Nat.min_le_left _ _)) with
      | (rest, r) => (rest.map (chunk ++ ·), r)

def take (count : Nat) (r : Records) : Option Bytes × Records :=
  takeWithin count count r

/-- Read so many bytes for what they say. -/
def takeAs {α : Type} (count : Nat) (f : Bytes → Option α) (r : Records) : Option α × Records :=
  ((r.take count).1.bind f, (r.take count).2)

def readU8 : Records → Option UInt8 × Records := takeAs 1 List.head?

def skip (count : Nat) : Records → Option Unit × Records := takeAs count fun _ => some ()

def copyInto (len : Nat) : Records → Option Bytes × Records := takeAs len some

end Records

/-- What the complete handshake records from here on carry, and whether the next
record is cut off rather than of another kind. -/
def payload (buf : Bytes) (start : Nat) : Bytes × Bool :=
  if hheader : buf.length < start + recordHeader then ([], true)
  else
    have hlen : start + 5 ≤ buf.length := Nat.le_of_not_lt hheader
    if buf[start] ≠ recordHandshake then ([], false)
    else
      let body := start + recordHeader
      let len := u16 buf[start + 3] buf[start + 4]
      if buf.length < body + len then ([], true)
      else
        let rest := payload buf (body + len)
        ((buf.drop body).take len ++ rest.1, rest.2)
termination_by buf.length - start
decreasing_by
  simp only [recordHeader]
  omega

namespace Records

/-- What is left to read. -/
def pending (r : Records) : Bytes :=
  (r.buf.drop r.pos).take (r.recordEnd - r.pos) ++ (payload r.buf r.nextRecord).1

/-- Whether the records end because the next one is cut off. -/
def endsCut (r : Records) : Bool :=
  (payload r.buf r.nextRecord).2

/-- The same is left to read, and as much has been read. -/
structure SamePlace (r r' : Records) : Prop where
  pending : r'.pending = r.pending
  endsCut : r'.endsCut = r.endsCut
  read : r'.read = r.read

lemma SamePlace.refl (r : Records) : SamePlace r r :=
  ⟨rfl, rfl, rfl⟩

lemma SamePlace.trans (h : SamePlace r r') (h' : SamePlace r' r'') :
    SamePlace r r'' :=
  ⟨h'.pending.trans h.pending, h'.endsCut.trans h.endsCut, h'.read.trans h.read⟩

/-- The cursor is stuck: nothing is left, and it knows why. -/
structure Stuck (r r' : Records) : Prop extends SamePlace r r' where
  empty : r.pending = []
  truncated : r'.truncated = (r.truncated || r.endsCut)

lemma advanceRecord_spec (hend : r.pos = r.recordEnd) :
    (r.advanceRecord.1 = true ∧ SamePlace r r.advanceRecord.2 ∧
        r.advanceRecord.2.truncated = r.truncated ∧ r.advanceRecord.2.buf = r.buf ∧
        r.nextRecord < r.advanceRecord.2.nextRecord) ∨
      (r.advanceRecord.1 = false ∧ Stuck r r.advanceRecord.2) := by
  have hpending : r.pending = (payload r.buf r.nextRecord).1 := by
    rw [pending, hend, Nat.sub_self, take_zero, nil_append]
  have hpayload := payload.eq_def r.buf r.nextRecord
  rw [advanceRecord]
  split at hpayload
  · next hheader =>
    right
    rw [dif_pos hheader]
    refine ⟨rfl, ⟨rfl, rfl, rfl⟩, by rw [hpending, hpayload], ?_⟩
    rw [endsCut, hpayload]
    exact (Bool.or_true _).symm
  · next hheader =>
    rw [dif_neg hheader]
    dsimp only at hpayload ⊢
    split at hpayload
    · next hkind =>
      right
      rw [if_pos hkind]
      refine ⟨rfl, .refl r, by rw [hpending, hpayload], ?_⟩
      rw [endsCut, hpayload]
      exact (Bool.or_false _).symm
    · next hkind =>
      rw [if_neg hkind]
      split at hpayload
      · next hcut =>
        right
        rw [dif_pos hcut]
        refine ⟨rfl, ⟨rfl, rfl, rfl⟩, by rw [hpending, hpayload], ?_⟩
        rw [endsCut, hpayload]
        exact (Bool.or_true _).symm
      · next hcut =>
        left
        rw [dif_neg hcut]
        refine ⟨rfl, ⟨?_, ?_, rfl⟩, rfl, rfl, ?_⟩
        · rw [hpending, hpayload, pending, enter, Nat.add_sub_cancel_left]
        · rw [endsCut, endsCut, hpayload]
          rfl
        · simp only [enter, recordHeader]
          omega

/-- **The cursor finds the next byte**, or is stuck because nothing is left. -/
theorem fillWithin_spec (n : Nat) (r : Records) (hn : r.buf.length < r.nextRecord + n) :
    ((fillWithin n r).1 = true ∧ SamePlace r (fillWithin n r).2 ∧
        (fillWithin n r).2.truncated = r.truncated ∧
        (fillWithin n r).2.pos < (fillWithin n r).2.recordEnd) ∨
      ((fillWithin n r).1 = false ∧ Stuck r (fillWithin n r).2) := by
  induction n generalizing r with
  | zero =>
    have hnext := r.end_le
    rw [← r.next_eq] at hnext
    omega
  | succ n ih =>
    rw [fillWithin]
    split
    · next hend =>
      rcases advanceRecord_spec hend with ⟨htrue, hplace, htruncated, hbuf, hnext⟩ |
        ⟨hfalse, hstuck⟩
      · rw [show r.advanceRecord = (true, r.advanceRecord.2) from Prod.ext htrue rfl]
        have hmore := ih r.advanceRecord.2 (by rw [hbuf]; omega)
        rcases hmore with ⟨h₁, h₂, h₃, h₄⟩ | ⟨h₁, h₂⟩
        · exact .inl ⟨h₁, hplace.trans h₂, h₃.trans htruncated, h₄⟩
        · refine .inr ⟨h₁, hplace.trans h₂.toSamePlace, hplace.pending ▸ h₂.empty, ?_⟩
          rw [h₂.truncated, htruncated, hplace.endsCut]
      · rw [show r.advanceRecord = (false, r.advanceRecord.2) from Prod.ext hfalse rfl]
        exact .inr ⟨rfl, hstuck⟩
    · next hinside =>
      exact .inl ⟨rfl, .refl r, rfl, Nat.lt_of_le_of_ne r.pos_le hinside⟩

lemma fill_spec (r : Records) :
    (r.fill.1 = true ∧ SamePlace r r.fill.2 ∧ r.fill.2.truncated = r.truncated ∧
        r.fill.2.pos < r.fill.2.recordEnd) ∨ (r.fill.1 = false ∧ Stuck r r.fill.2) :=
  fillWithin_spec (r.buf.length + 1) r (by omega)

lemma pending_forward (r : Records) (h : step ≤ r.recordEnd - r.pos) :
    r.pending = (r.buf.drop r.pos).take step ++ (r.forward step h).pending := by
  rw [pending, pending, forward, ← append_assoc]
  have hsplit : r.recordEnd - r.pos = step + (r.recordEnd - (r.pos + step)) := by omega
  rw [hsplit, take_add, drop_drop]

lemma length_step (r : Records) (h : step ≤ r.recordEnd - r.pos) :
    ((r.buf.drop r.pos).take step).length = step := by
  have := r.end_le
  rw [length_take, length_drop]
  omega

/-- The cursor has taken these bytes. -/
structure Took (r : Records) (bytes : Bytes) (r' : Records) : Prop where
  pending : r.pending = bytes ++ r'.pending
  endsCut : r'.endsCut = r.endsCut
  read : r'.read = r.read + bytes.length
  truncated : r'.truncated = r.truncated

/-- The cursor has run out of bytes. -/
structure RanOut (r : Records) (count : Nat) (r' : Records) : Prop where
  short : r.pending.length < count
  pending : r'.pending = []
  endsCut : r'.endsCut = r.endsCut
  read : r'.read = r.read + r.pending.length
  truncated : r'.truncated = (r.truncated || r.endsCut)

lemma takeWithin_spec (n count : Nat) (r : Records) (hn : count ≤ n) :
    (∃ bytes, (takeWithin n count r).1 = some bytes ∧ bytes.length = count ∧
        Took r bytes (takeWithin n count r).2) ∨
      ((takeWithin n count r).1 = none ∧ RanOut r count (takeWithin n count r).2) := by
  induction n generalizing count r with
  | zero =>
    obtain rfl : count = 0 := Nat.le_zero.mp hn
    exact .inl ⟨[], rfl, rfl, rfl, rfl, rfl, rfl⟩
  | succ n ih =>
    cases count with
    | zero => exact .inl ⟨[], rfl, rfl, rfl, rfl, rfl, rfl⟩
    | succ count =>
      rw [takeWithin]
      rcases fill_spec r with ⟨htrue, hplace, htruncated, hinside⟩ | ⟨hfalse, hstuck⟩
      · rw [show r.fill = (true, r.fill.2) from Prod.ext htrue rfl]
        generalize r.fill.2 = r₁ at hplace htruncated hinside ⊢
        dsimp only
        generalize_proofs hle
        have hcount := Nat.min_le_right (r₁.recordEnd - r₁.pos) (count + 1)
        generalize hstep : min (r₁.recordEnd - r₁.pos) (count + 1) = step at hle hcount ⊢
        have hpending := pending_forward r₁ hle
        have hlength := length_step r₁ hle
        rw [hplace.pending] at hpending
        rcases ih (count + 1 - step) (r₁.forward step hle) (by omega) with
          ⟨bytes, hsome, hbytes, htook⟩ | ⟨hnone, hout⟩
        · left
          refine ⟨_, by rw [hsome]; rfl, ?_, ?_, ?_, ?_, ?_⟩
          · rw [length_append, hlength, hbytes]
            omega
          · rw [hpending, htook.pending, append_assoc]
          · exact htook.endsCut.trans hplace.endsCut
          · have hread : (r₁.forward step hle).read = r₁.read + step := rfl
            rw [htook.read, hread, length_append, hlength, ← hplace.read]
            omega
          · exact htook.truncated.trans htruncated
        · right
          have hread : (r₁.forward step hle).read = r₁.read + step := rfl
          refine ⟨by rw [hnone]; rfl, ?_, hout.pending, hout.endsCut.trans hplace.endsCut, ?_, ?_⟩
          · have := hout.short
            rw [hpending, length_append, hlength]
            omega
          · rw [hout.read, hread, hpending, length_append, hlength, ← hplace.read]
            omega
          · rw [hout.truncated, ← htruncated, ← hplace.endsCut]
            rfl
      · rw [show r.fill = (false, r.fill.2) from Prod.ext hfalse rfl]
        right
        refine ⟨rfl, ?_, hstuck.pending.trans hstuck.empty, hstuck.endsCut, ?_, hstuck.truncated⟩
        · rw [hstuck.empty]
          exact Nat.zero_lt_succ count
        · rw [hstuck.empty]
          exact hstuck.read

/-- **What the cursor reads**: the next bytes of the payload, across records, or
nothing when there are not so many. -/
theorem take_spec (count : Nat) (r : Records) :
    (∃ bytes, (r.take count).1 = some bytes ∧ bytes.length = count ∧
        Took r bytes (r.take count).2) ∨
      ((r.take count).1 = none ∧ RanOut r count (r.take count).2) :=
  takeWithin_spec count count r le_rfl

end Records

def handshakeClientHello : UInt8 := 0x01
def extServerName : Nat := 0x0000
def nameTypeHost : UInt8 := 0x00

inductive HelloScan where
  | sni (host : Bytes)
  | noSni
  | notTls
  | incomplete
  deriving DecidableEq

/-- How the walk through the message ends; a name that is found comes with it. -/
inductive Walk where
  | found (name : Bytes)
  | absent
  | malformed
  | short
  deriving DecidableEq

abbrev Walker (α : Type) : Type := Scan Records Walk α

/-- A read that the walk cannot go on without. -/
def need {α : Type} (read : Records → Option α × Records) : Walker α := fun r =>
  match read r with
  | (some a, r) => (.ok a, r)
  | (none, r) => (.error .short, r)

def readU8 : Walker UInt8 := need Records.readU8

def readU16 : Walker Nat := do
  let hi ← readU8
  let lo ← readU8
  pure (u16 hi lo)

def readU24 : Walker Nat := do
  let a ← readU8
  let b ← readU8
  let c ← readU8
  pure (a.toNat * 65536 + b.toNat * 256 + c.toNat)

def skip (count : Nat) : Walker Unit := need (Records.skip count)

def copyInto (len : Nat) : Walker Bytes := need (Records.copyInto len)

/-- The names of a server name extension: so many bytes are left, and the first
host name so far. Every name takes three bytes at least, so the bytes that are left
bound the rounds. -/
def names : Nat → Nat → Option Bytes → Walker Walk
  | _, 0, found => pure (found.elim .absent .found)
  | 0, _ + 1, _ => Scan.stop .malformed
  | n + 1, left + 1, found => do
      if left + 1 < 3 then Scan.stop .malformed
      let nameType ← readU8
      let nameLen ← readU16
      let left := left + 1 - 3
      if left < nameLen then Scan.stop .malformed
      let left := left - nameLen
      if nameType = nameTypeHost ∧ found.isNone ∧ nameLen ≤ maxNameLen then
        let name ← copyInto nameLen
        names n left (some name)
      else
        skip nameLen
        names n left found

def serverName (extLen : Nat) : Walker Walk := do
  if extLen < 2 then Scan.stop .malformed
  let listLen ← readU16
  if listLen + 2 ≠ extLen then Scan.stop .malformed
  names listLen listLen none

/-- The extensions, of which so many bytes remain; every one takes four at least. -/
def extensions : Nat → Nat → Walker Walk
  | _, 0 => pure .absent
  | 0, _ + 1 => Scan.stop .malformed
  | n + 1, remaining + 1 => do
      if remaining + 1 < 4 then Scan.stop .malformed
      let extType ← readU16
      let extLen ← readU16
      let remaining := remaining + 1 - 4
      if remaining < extLen then Scan.stop .malformed
      let remaining := remaining - extLen
      if extType ≠ extServerName then
        skip extLen
        extensions n remaining
      else serverName extLen

def walk : Walker Walk := do
  let kind ← readU8
  if kind ≠ handshakeClientHello then Scan.stop .malformed
  let bodyLen ← readU24
  let bodyStart ← Scan.get Records.read
  skip (2 + 32)
  let sessionId ← readU8
  skip sessionId.toNat
  let cipherSuites ← readU16
  if cipherSuites % 2 ≠ 0 then Scan.stop .malformed
  skip cipherSuites
  let compression ← readU8
  skip compression.toNat
  let bodyEnd ← Scan.get Records.read
  let consumed := bodyEnd - bodyStart
  if bodyLen < consumed then Scan.stop .malformed
  if consumed = bodyLen then Scan.stop .absent
  let extensionsLen ← readU16
  if bodyLen < consumed + 2 + extensionsLen then Scan.stop .malformed
  extensions extensionsLen extensionsLen

def scanClientHello (buf : Bytes) : HelloScan :=
  match buf with
  | [] => .incomplete
  | first :: _ =>
    if first ≠ recordHandshake then .notTls
    else
      let reader := Records.new buf
      match walk.outcome reader with
      | .found name => (normalizeHost name).elim .noSni .sni
      | .absent => .noSni
      | .malformed => .notTls
      | .short => if (walk reader).2.truncated then .incomplete else .notTls

/-- The second cursor has everything the first has left, and goes further only
where the first is cut off. -/
structure Follows (r r' : Records) : Prop where
  read : r.read = r'.read
  fresh : r.truncated = false ∧ r'.truncated = false
  pending : ∃ extra, r'.pending = r.pending ++ extra ∧
    (r.endsCut = true ∨ (extra = [] ∧ r'.endsCut = false))

/-- The walk stops short only on a cursor that is cut off, or does the same on one
that goes further. -/
abbrev SteadyWalk {α : Type} (m : Walker α) : Prop :=
  Scan.Steady .short (fun r => r.truncated = true) Follows m

lemma need_some {read : Records → Option α × Records}
    (h : (read r).1 = some a) : need read r = (.ok a, (read r).2) := by
  rw [need, show read r = (some a, (read r).2) from Prod.ext h rfl]

lemma need_none {read : Records → Option α × Records}
    (h : (read r).1 = none) : need read r = (.error .short, (read r).2) := by
  rw [need, show read r = (none, (read r).2) from Prod.ext h rfl]

/-- **Reading is steady**: the first cursor has the bytes, and then the second has
the same, or it lacks some, and then the second lacks them too unless the first is
cut off. -/
theorem steady_take {α : Type} {f : Bytes → Option α}
    (hf : ∀ bytes, bytes.length = count → (f bytes).isSome = true) :
    SteadyWalk (need (Records.takeAs count f)) := by
  intro r r' h
  obtain ⟨extra, hextra, hcut⟩ := h.pending
  rcases Records.take_spec count r with ⟨bytes, hsome, hlength, htook⟩ | ⟨hnone, hout⟩
  · right
    rcases Records.take_spec count r' with ⟨bytes', hsome', hlength', htook'⟩ | ⟨-, hout'⟩
    · have hsame : bytes' ++ (r'.take count).2.pending =
          bytes ++ ((r.take count).2.pending ++ extra) := by
        rw [← htook'.pending, hextra, htook.pending, append_assoc]
      obtain ⟨rfl, hrest⟩ := append_inj hsame (hlength'.trans hlength.symm)
      obtain ⟨a, ha⟩ := Option.isSome_iff_exists.mp (hf bytes' hlength)
      have hok : need (Records.takeAs count f) r = (.ok a, (r.take count).2) :=
        need_some (by rw [Records.takeAs, hsome]; exact ha)
      have hok' : need (Records.takeAs count f) r' = (.ok a, (r'.take count).2) :=
        need_some (by rw [Records.takeAs, hsome']; exact ha)
      rw [hok, hok']
      refine ⟨rfl, ?_, ?_, extra, hrest, ?_⟩
      · rw [htook.read, htook'.read, h.read]
      · exact ⟨htook.truncated.trans h.fresh.1, htook'.truncated.trans h.fresh.2⟩
      · rw [htook.endsCut, htook'.endsCut]
        exact hcut
    · have hshort := hout'.short
      rw [hextra, htook.pending, length_append, length_append] at hshort
      omega
  · have hshort : need (Records.takeAs count f) r = (.error .short, (r.take count).2) :=
      need_none (by rw [Records.takeAs, hnone]; rfl)
    rw [hshort]
    by_cases hends : r.endsCut = true
    · left
      refine ⟨rfl, ?_⟩
      show (r.take count).2.truncated = true
      rw [hout.truncated, hends, Bool.or_true]
    · right
      obtain ⟨rfl, hends'⟩ := hcut.resolve_left hends
      rw [append_nil] at hextra
      rcases Records.take_spec count r' with ⟨bytes', -, hlength', htook'⟩ | ⟨hnone', hout'⟩
      · have hfew := hout.short
        rw [← hextra, htook'.pending, length_append] at hfew
        omega
      · have hshort' : need (Records.takeAs count f) r' = (.error .short, (r'.take count).2) :=
          need_none (by rw [Records.takeAs, hnone']; rfl)
        rw [hshort']
        refine ⟨rfl, ?_, ?_, [], ?_, .inr ⟨rfl, hout'.endsCut.trans hends'⟩⟩
        · rw [hout.read, hout'.read, h.read, hextra]
        · rw [hout.truncated, hout'.truncated, h.fresh.1, h.fresh.2, hends',
            Bool.eq_false_of_not_eq_true hends]
          exact ⟨rfl, rfl⟩
        · rw [hout.pending, hout'.pending, append_nil]

lemma steady_readU8 : SteadyWalk readU8 := by
  refine steady_take fun bytes hlength => ?_
  obtain ⟨b, rfl⟩ := length_eq_one_iff.mp hlength
  rfl

lemma steady_skip (count : Nat) : SteadyWalk (skip count) :=
  steady_take fun _ _ => rfl

lemma steady_copyInto (len : Nat) : SteadyWalk (copyInto len) :=
  steady_take fun _ _ => rfl

lemma steady_readU16 : SteadyWalk readU16 :=
  steady_readU8.bind fun _ => steady_readU8.bind fun _ => .pure _

lemma steady_readU24 : SteadyWalk readU24 :=
  steady_readU8.bind fun _ => steady_readU8.bind fun _ => steady_readU8.bind fun _ => .pure _

lemma steady_read : SteadyWalk (Scan.get Records.read) :=
  .get fun _ _ h => h.read

lemma steady_check [Decidable p] (hm : SteadyWalk m) :
    SteadyWalk (do
      if p then Scan.stop w
      m) := by
  split
  · exact (Scan.Steady.stop w).bind fun _ => hm
  · exact (Scan.Steady.pure ()).bind fun _ => hm

lemma steady_names (n left : Nat) (found : Option Bytes) : SteadyWalk (names n left found) := by
  induction n generalizing left found with
  | zero =>
    cases left with
    | zero => exact .pure _
    | succ left => exact .stop _
  | succ n ih =>
    cases left with
    | zero => exact .pure _
    | succ left =>
      refine steady_check (steady_readU8.bind fun nameType => steady_readU16.bind fun nameLen => ?_)
      refine steady_check ?_
      split
      · exact (steady_copyInto nameLen).bind fun name => ih _ _
      · exact (steady_skip nameLen).bind fun _ => ih _ _

lemma steady_serverName (extLen : Nat) : SteadyWalk (serverName extLen) :=
  steady_check (steady_readU16.bind fun listLen => steady_check (steady_names listLen listLen none))

lemma steady_extensions (n remaining : Nat) : SteadyWalk (extensions n remaining) := by
  induction n generalizing remaining with
  | zero =>
    cases remaining with
    | zero => exact .pure _
    | succ remaining => exact .stop _
  | succ n ih =>
    cases remaining with
    | zero => exact .pure _
    | succ remaining =>
      refine steady_check (steady_readU16.bind fun extType => steady_readU16.bind fun extLen => ?_)
      refine steady_check ?_
      split
      · exact (steady_skip extLen).bind fun _ => ih _
      · exact steady_serverName extLen

/-- **The walk is steady.** -/
theorem steady_walk : SteadyWalk walk := by
  refine steady_readU8.bind fun kind => steady_check ?_
  refine steady_readU24.bind fun bodyLen => steady_read.bind fun bodyStart => ?_
  refine (steady_skip _).bind fun _ => steady_readU8.bind fun sessionId => ?_
  refine (steady_skip _).bind fun _ => steady_readU16.bind fun cipherSuites => steady_check ?_
  refine (steady_skip _).bind fun _ => steady_readU8.bind fun compression => ?_
  refine (steady_skip _).bind fun _ => steady_read.bind fun bodyEnd => ?_
  refine steady_check (steady_check ?_)
  refine steady_readU16.bind fun extensionsLen => steady_check ?_
  exact steady_extensions extensionsLen extensionsLen

lemma payload_foreign
    (hlen : start + 5 ≤ buf.length) (hkind : buf[start]? = some kind) (hne : kind ≠ recordHandshake) :
    payload buf start = ([], false) := by
  have hget : buf[start] = kind := (List.getElem?_eq_some_iff.mp hkind).2
  have hheader : ¬ buf.length < start + recordHeader := Nat.not_lt.mpr hlen
  rw [payload, dif_neg hheader]
  dsimp only
  rw [hget, if_pos hne]

lemma payload_record (hkind : buf[start]? = some recordHandshake) (hhi : buf[start + 3]? = some hi)
    (hlo : buf[start + 4]? = some lo) (hend : start + 5 + u16 hi lo ≤ buf.length) :
    payload buf start =
      ((buf.drop (start + 5)).take (u16 hi lo) ++ (payload buf (start + 5 + u16 hi lo)).1,
        (payload buf (start + 5 + u16 hi lo)).2) := by
  obtain ⟨hlen, hget⟩ := List.getElem?_eq_some_iff.mp hkind
  obtain ⟨_, hget₃⟩ := List.getElem?_eq_some_iff.mp hhi
  obtain ⟨_, hget₄⟩ := List.getElem?_eq_some_iff.mp hlo
  have hheader : ¬ buf.length < start + recordHeader := by
    simp only [recordHeader]
    omega
  rw [payload, dif_neg hheader]
  dsimp only
  have hcut : ¬ buf.length < start + recordHeader + u16 hi lo := Nat.not_lt.mpr hend
  rw [hget, hget₃, hget₄, if_neg (fun h => h rfl), if_neg hcut]
  rfl

lemma payload_append (buf more : Bytes) (start : Nat) :
    ∃ extra, (payload (buf ++ more) start).1 = (payload buf start).1 ++ extra ∧
      ((payload buf start).2 = true ∨ (extra = [] ∧ (payload (buf ++ more) start).2 = false)) := by
  have hget : ∀ {i : Nat} (hi : i < buf.length), (buf ++ more)[i]? = some buf[i] := by
    intro i hi
    rw [getElem?_append_left hi, getElem?_eq_getElem hi]
  fun_induction payload buf start with
  | case1 start hheader => exact ⟨_, rfl, .inl rfl⟩
  | case2 start hheader hlen hkind =>
    have hlen' : start + 5 ≤ (buf ++ more).length := by
      rw [length_append]
      omega
    rw [payload_foreign hlen' (hget (by omega)) hkind]
    exact ⟨[], rfl, .inr ⟨rfl, rfl⟩⟩
  | case3 start hheader hlen hkind body len hcut => exact ⟨_, rfl, .inl rfl⟩
  | case4 start hheader hlen hkind body len hcut rest ih =>
    have hend' : body + len ≤ (buf ++ more).length := by
      rw [length_append]
      omega
    have hfirst : (buf ++ more)[start]? = some recordHandshake := by
      rw [hget (by omega), not_not.mp hkind]
    rw [payload_record hfirst (hget (by omega)) (hget (by omega)) hend']
    obtain ⟨extra, hextra, hcases⟩ := ih
    refine ⟨extra, ?_, hcases⟩
    have hslice : ((buf ++ more).drop body).take len = (buf.drop body).take len := by
      rw [drop_append_of_le_length (by omega), take_append_of_le_length]
      rw [length_drop]
      omega
    show ((buf ++ more).drop body).take len ++ (payload (buf ++ more) (body + len)).1 = _
    rw [hslice, hextra, append_assoc]

lemma pending_new (buf : Bytes) : (Records.new buf).pending = (payload buf 0).1 :=
  rfl

lemma scan_eq_of_walk (hfirst : first = recordHandshake) (hfirst' : first' = recordHandshake)
    (hsame : walk.outcome (Records.new (first :: rest)) =
      walk.outcome (Records.new (first' :: rest')))
    (hcut : (walk (Records.new (first :: rest))).2.truncated =
      (walk (Records.new (first' :: rest'))).2.truncated) :
    scanClientHello (first :: rest) = scanClientHello (first' :: rest') := by
  simp only [scanClientHello, hfirst, hfirst']
  rw [hfirst, hfirst'] at hsame hcut
  rw [hsame, hcut]

lemma scan_of_short (hfirst : first = recordHandshake)
    (hshort : (walk (Records.new (first :: rest))).1 = .error .short)
    (hcut : (walk (Records.new (first :: rest))).2.truncated = true) :
    scanClientHello (first :: rest) = .incomplete := by
  subst hfirst
  have houtcome : walk.outcome (Records.new (recordHandshake :: rest)) = .short := by
    rw [Scan.outcome, hshort]
  simp only [scanClientHello]
  rw [houtcome]
  exact if_pos hcut

/-- **An answer stays**: once the scan has one, further bytes do not change it. -/
theorem scan_steady (more : Bytes) (h : scanClientHello buf ≠ .incomplete) :
    scanClientHello (buf ++ more) = scanClientHello buf := by
  cases buf with
  | nil => exact absurd rfl h
  | cons first rest =>
    by_cases hfirst : first = recordHandshake
    · obtain ⟨extra, hextra, hcut⟩ := payload_append (first :: rest) more 0
      have hfollows : Follows (Records.new (first :: rest)) (Records.new (first :: rest ++ more)) :=
        ⟨rfl, ⟨rfl, rfl⟩, extra, hextra, hcut⟩
      rcases steady_walk.outcome hfollows with ⟨hshort, htruncated⟩ | ⟨hsame, hnext⟩
      · exact absurd (scan_of_short hfirst hshort htruncated) h
      · refine (scan_eq_of_walk hfirst hfirst hsame ?_).symm
        exact hnext.fresh.1.trans hnext.fresh.2.symm
    · show scanClientHello (first :: (rest ++ more)) = _
      simp only [scanClientHello, ne_eq, hfirst, not_false_eq_true, if_true]

/-- A handshake record: its version and what it carries. -/
structure HandshakeRecord where
  major : UInt8
  minor : UInt8
  fragment : Bytes
  length_lt : fragment.length < 65536

def HandshakeRecord.wire (record : HandshakeRecord) : Bytes :=
  recordHandshake :: record.major :: record.minor ::
    UInt8.ofNat (record.fragment.length / 256) :: UInt8.ofNat (record.fragment.length % 256) ::
      record.fragment

def wire (records : List HandshakeRecord) : Bytes :=
  records.flatMap HandshakeRecord.wire

def message (records : List HandshakeRecord) : Bytes :=
  records.flatMap HandshakeRecord.fragment

lemma u16_length (h : n < 65536) :
    u16 (UInt8.ofNat (n / 256)) (UInt8.ofNat (n % 256)) = n := by
  rw [u16, UInt8.toNat_ofNat', UInt8.toNat_ofNat']
  omega

lemma payload_wire (before : Bytes) (records : List HandshakeRecord) :
    payload (before ++ wire records) before.length = (message records, true) := by
  induction records generalizing before with
  | nil =>
    rw [payload, dif_pos]
    · rfl
    · simp [wire, recordHeader]
  | cons record records ih =>
    have hlength := u16_length record.length_lt
    have hwire : wire (record :: records) = record.wire ++ wire records := rfl
    have hat : ∀ k, (before ++ wire (record :: records))[before.length + k]? =
        (record.wire ++ wire records)[k]? := by
      intro k
      rw [getElem?_append_right (Nat.le_add_right _ _), Nat.add_sub_cancel_left, hwire]
    have hsize : (before ++ record.wire).length = before.length + 5 + record.fragment.length := by
      rw [length_append, HandshakeRecord.wire]
      simp only [length_cons]
      omega
    have hend : before.length + 5 + u16 (UInt8.ofNat (record.fragment.length / 256))
        (UInt8.ofNat (record.fragment.length % 256)) ≤
          (before ++ wire (record :: records)).length := by
      rw [hlength, hwire, ← append_assoc, length_append, hsize]
      exact Nat.le_add_right _ _
    have hfirst : (before ++ wire (record :: records))[before.length]? = some recordHandshake :=
      hat 0
    rw [payload_record hfirst (hat 3) (hat 4) hend, hlength]
    have hrest := ih (before ++ record.wire)
    rw [append_assoc, ← hwire, hsize] at hrest
    rw [hrest]
    have hfragment : ((before ++ wire (record :: records)).drop (before.length + 5)).take
        record.fragment.length = record.fragment := by
      rw [← drop_drop, drop_left, hwire, HandshakeRecord.wire]
      exact take_left
    rw [hfragment]
    rfl

lemma follows_of_message (hsame : message records = message records') :
    Follows (Records.new (wire records)) (Records.new (wire records')) := by
  have hpayload : payload (wire records) 0 = (message records, true) := payload_wire [] records
  have hpayload' : payload (wire records') 0 = (message records', true) := payload_wire [] records'
  refine ⟨rfl, ⟨rfl, rfl⟩, [], ?_, .inl (congrArg Prod.snd hpayload)⟩
  rw [pending_new, pending_new, hpayload, hpayload', hsame, append_nil]

/-- **The records do not matter**: the answer depends on the message alone. -/
theorem scan_records
    (hsame : message records = message records') (hnonempty : message records ≠ []) :
    scanClientHello (wire records) = scanClientHello (wire records') := by
  have hfollows := follows_of_message hsame
  have hfollows' := follows_of_message hsame.symm
  have hhead : ∀ {rs : List HandshakeRecord}, message rs ≠ [] →
      ∃ rest, wire rs = recordHandshake :: rest := by
    intro rs hrs
    cases rs with
    | nil => exact absurd rfl hrs
    | cons record rs => exact ⟨_, rfl⟩
  obtain ⟨rest, hrest⟩ := hhead hnonempty
  obtain ⟨rest', hrest'⟩ := hhead (hsame ▸ hnonempty)
  rw [hrest, hrest'] at hfollows hfollows' ⊢
  rcases steady_walk.outcome hfollows with ⟨hshort, hcut⟩ | ⟨hwalk, hnext⟩
  · -- cut off on the one, the walk is cut off on the other
    rcases steady_walk.outcome hfollows' with ⟨hshort', hcut'⟩ | ⟨-, hnext'⟩
    · rw [scan_of_short rfl hshort hcut, scan_of_short rfl hshort' hcut']
    · exact absurd hcut (by rw [hnext'.fresh.2]; exact Bool.false_ne_true)
  · exact scan_eq_of_walk rfl rfl hwalk (hnext.fresh.1.trans hnext.fresh.2.symm)

inductive HelloError where
  | unexpectedEof
  deriving DecidableEq

/-- Read the connection piece by piece until the scan has an answer. The pieces are
what the reads return, none of them more than there is room for; an empty one, or
none, is the end of the connection. -/
def readClientHello : Bytes → List Bytes → Except HelloError HelloScan
  | hello, [] =>
    if maxHelloBytes - hello.length = 0 then .ok .noSni else .error .unexpectedEof
  | hello, chunk :: chunks =>
    if maxHelloBytes - hello.length = 0 then .ok .noSni
    else if chunk = [] then .error .unexpectedEof
    else
      match scanClientHello (hello ++ chunk) with
      | .incomplete => readClientHello (hello ++ chunk) chunks
      | scan => .ok scan

/-- What comes of a connection that sends this much. -/
def helloOutcome (data : Bytes) : Except HelloError HelloScan :=
  match scanClientHello data with
  | .incomplete => if maxHelloBytes ≤ data.length then .ok .noSni else .error .unexpectedEof
  | scan => .ok scan

lemma helloOutcome_of_answer (h : scanClientHello data ≠ .incomplete) :
    helloOutcome data = .ok (scanClientHello data) := by
  rw [helloOutcome]
  split
  · next hscan => exact absurd hscan h
  · rfl

/-- **The pieces do not matter.** -/
theorem readClientHello_eq
    (hscan : scanClientHello hello = .incomplete) (hchunks : ∀ chunk ∈ chunks, chunk ≠ [])
    (hroom : (hello ++ chunks.flatten).length ≤ maxHelloBytes) :
    readClientHello hello chunks = helloOutcome (hello ++ chunks.flatten) := by
  induction chunks generalizing hello with
  | nil =>
    rw [flatten_nil, append_nil] at hroom ⊢
    rw [readClientHello, helloOutcome, hscan]
    simp only [Nat.sub_eq_zero_iff_le]
  | cons chunk chunks ih =>
    obtain ⟨hchunk, hchunks⟩ := forall_mem_cons.mp hchunks
    rw [flatten_cons, ← append_assoc] at hroom ⊢
    have hfree : ¬ maxHelloBytes - hello.length = 0 := by
      have := length_pos_of_ne_nil hchunk
      simp only [length_append] at hroom
      omega
    rw [readClientHello, if_neg hfree, if_neg hchunk]
    split
    · next hmore => exact ih hmore hchunks hroom
    · next hanswer =>
      have hsteady := scan_steady chunks.flatten hanswer
      rw [helloOutcome_of_answer (hsteady ▸ hanswer), hsteady]

/-- **The answer does not depend on how the bytes arrive.** Once the scan has an
answer, further bytes leave it. A connection that sends the same bytes in different
pieces is answered the same. And a message in one record is answered as it is in
any number of records, empty ones among them. -/
theorem hello_segmentation :
    (∀ buf more, scanClientHello buf ≠ .incomplete →
      scanClientHello (buf ++ more) = scanClientHello buf) ∧
    (∀ chunks chunks' : List Bytes, (∀ chunk ∈ chunks ++ chunks', chunk ≠ []) →
      chunks.flatten = chunks'.flatten → chunks.flatten.length ≤ maxHelloBytes →
      readClientHello [] chunks = readClientHello [] chunks') ∧
    ∀ (records : List HandshakeRecord) (whole : HandshakeRecord), whole.fragment ≠ [] →
      message records = whole.fragment →
      scanClientHello (wire records) = scanClientHello (wire [whole]) := by
  refine ⟨fun buf more h => scan_steady more h, ?_, ?_⟩
  · intro chunks chunks' hchunks hsame hroom
    obtain ⟨hfirst, hsecond⟩ := forall_mem_append.mp hchunks
    rw [readClientHello_eq rfl hfirst hroom, readClientHello_eq rfl hsecond (hsame ▸ hroom), hsame]
  · intro records whole hnonempty hmessage
    have hwhole : message [whole] = whole.fragment := append_nil _
    exact scan_records (hmessage.trans hwhole.symm) (hmessage ▸ hnonempty)

/-- The head of a ClientHello up to its server name, and the name. -/
def sampleHead : Bytes :=
  [1, 0, 0, 61, 3, 3] ++ List.replicate 32 0 ++
    [0, 0, 2, 0x13, 1, 1, 0, 0, 18, 0, 0, 0, 14, 0, 12, 0, 0, 9]

def sampleName : Bytes := lit "a.example"

def sampleWhole : HandshakeRecord := ⟨3, 1, sampleHead ++ sampleName, by decide⟩

/-- The same message in three records, of which one is empty. -/
def sampleRecords : List HandshakeRecord :=
  [⟨3, 1, sampleHead, by decide⟩, ⟨3, 1, [], by decide⟩, ⟨3, 3, sampleName, by decide⟩]

theorem hello_segmentation_sample :
    (∀ more, scanClientHello (wire [sampleWhole] ++ more) = .sni sampleName) ∧
      readClientHello [] [wire sampleRecords] =
        readClientHello [] [(wire sampleRecords).take 7, (wire sampleRecords).drop 7] ∧
      scanClientHello (wire sampleRecords) = .sni sampleName := by
  have hscan : scanClientHello (wire [sampleWhole]) = .sni sampleName := by decide +kernel
  have hmessage : message sampleRecords = sampleWhole.fragment := rfl
  refine ⟨fun more => ?_, ?_, ?_⟩
  · rw [hello_segmentation.1 _ more (by rw [hscan]; nofun), hscan]
  · refine hello_segmentation.2.1 _ _ ?_ ?_ ?_
    · decide
    · rfl
    · decide
  · rw [hello_segmentation.2.2 sampleRecords sampleWhole nofun hmessage, hscan]

end FastAdHunter.Http.Sni
