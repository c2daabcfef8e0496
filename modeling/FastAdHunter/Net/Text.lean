import FastAdHunter.Lib.Bytes
import FastAdHunter.Net.Addr
import Mathlib.Data.Nat.Digits.Lemmas

/-!
# Printing and parsing of socket addresses

The text forms of `std::net`: the `Display` printers, which compress the first
longest run of zero segments of an IPv6 address, and the recursive-descent
reader behind `FromStr`. A reader takes the remaining input and returns a value
with the rest; a failed reader consumes nothing.

The main result, `parseSocketAddr_show`, is that a printed socket address reads
back as itself, for every IPv4 and IPv6 address and every port and scope. Only
the flow label is not printed.
-/

namespace FastAdHunter.Net

open Lib List

/-- A reader: the value read and the input that is left. -/
abbrev Reader (α : Type) := Bytes → Option (α × Bytes)

/-- `char::to_digit`. -/
def toDigit (radix : Nat) (b : UInt8) : Option Nat :=
  let d :=
    if isAsciiDigit b then b.toNat - 48
    else if isAsciiLowercase b then b.toNat - 97 + 10
    else if isAsciiUppercase b then b.toNat - 65 + 10
    else radix
  if d < radix then some d else none

/-- The lower-case digit for a value below 36. -/
def digitByte (d : Nat) : UInt8 :=
  if d < 10 then UInt8.ofNat (48 + d) else UInt8.ofNat (87 + d)

/-- The digits of a number from the left; zero has one digit. -/
def bigDigits (radix n : Nat) : List Nat :=
  if n = 0 then [0] else (Nat.digits radix n).reverse

/-- A number in the given radix, without leading zeros. -/
def showRadix (radix n : Nat) : Bytes :=
  (bigDigits radix n).map digitByte

/-- The digit loop of `read_number`. After each digit `ok` sees the number of
digits so far and the value; `false` makes the whole number fail. -/
def readDigits (radix : Nat) (ok : Nat → Nat → Bool) :
    Bytes → Nat → Nat → Option (Nat × Nat × Bytes)
  | [], n, k => some (n, k, [])
  | b :: s, n, k =>
    match toDigit radix b with
    | none => some (n, k, b :: s)
    | some d =>
      if ok (k + 1) (n * radix + d) then
        readDigits radix ok s (n * radix + d) (k + 1)
      else none

/-- What `read_number` checks after a digit: the digit limit where there is
one, overflow of the integer type otherwise. -/
def digitGuard (bound : Nat) : Option Nat → Nat → Nat → Bool
  | some m, k, _ => decide (k ≤ m)
  | none, _, n => decide (n < bound)

/-- `read_number` at an integer type with values below `bound`. With a digit
limit the value is checked once at the end, without one after every digit. -/
def readNumber (radix bound : Nat) (maxDigits : Option Nat)
    (allowZeroPrefix : Bool) : Reader Nat := fun s =>
  match readDigits radix (digitGuard bound maxDigits) s 0 0 with
  | none => none
  | some (n, k, rest) =>
    if k = 0 then none
    else if !allowZeroPrefix && s.head? == some 48 && decide (1 < k) then none
    else if n < bound then some (n, rest)
    else none

/-- The next byte is not a digit of this radix. -/
def NoDigit (radix : Nat) (s : Bytes) : Prop :=
  ∀ b r, s = b :: r → toDigit radix b = none

lemma toDigit_digitByte (hr : radix ≤ 16) (hd : d < radix) :
    toDigit radix (digitByte d) = some d := by
  have h : ∀ d : Fin 16, ∀ radix, d.val < radix →
      toDigit radix (digitByte d) = some d.val := by
    intro d radix hd
    fin_cases d <;> simp_all [toDigit, digitByte, isAsciiDigit,
      isAsciiLowercase]
  exact h ⟨d, by omega⟩ radix hd

lemma readDigits_append (hr : radix ≤ 16) (hrest : NoDigit radix rest) :
    ∀ (ds : List Nat) (n k : Nat),
      (∀ d ∈ ds, d < radix) →
      (∀ k' n', k' ≤ k + ds.length →
        n' ≤ ds.foldl (fun n d => n * radix + d) n → ok k' n' = true) →
      readDigits radix ok (ds.map digitByte ++ rest) n k =
        some (ds.foldl (fun n d => n * radix + d) n, k + ds.length, rest)
  | [], n, k, _, _ => by
      cases rest with
      | nil => rfl
      | cons b r =>
        simp [readDigits, hrest b r rfl]
  | d :: ds, n, k, hlt, hok => by
      have hle : ∀ (ds : List Nat) (n : Nat), 1 ≤ radix →
          n ≤ ds.foldl (fun n d => n * radix + d) n := by
        intro ds
        induction ds with
        | nil => intro n _; exact le_refl n
        | cons d ds ih =>
          intro n h
          calc n ≤ n * radix := Nat.le_mul_of_pos_right n h
            _ ≤ n * radix + d := Nat.le_add_right _ _
            _ ≤ _ := ih _ h
      have hd : d < radix := hlt d mem_cons_self
      have hstep : ok (k + 1) (n * radix + d) = true := by
        apply hok
        · simp
        · exact hle ds _ (by omega)
      have ih := readDigits_append hr hrest ds (n * radix + d) (k + 1)
        (fun d hd => hlt d (mem_cons_of_mem _ hd))
        (fun k' n' hk hn => hok k' n' (by simp at hk ⊢; omega) hn)
      simp only [map_cons, cons_append, readDigits,
        toDigit_digitByte hr hd, hstep, if_true, ih, foldl_cons,
        length_cons]
      congr 3
      omega

lemma foldl_bigDigits (radix n : Nat) :
    (bigDigits radix n).foldl (fun n d => n * radix + d) 0 = n := by
  unfold bigDigits
  split
  · next h => simp [h]
  · rw [foldl_reverse]
    have h := Nat.ofDigits_eq_foldr radix (Nat.digits radix n)
    rw [Nat.ofDigits_digits] at h
    calc _ = List.foldr (fun x y => (x : Nat) + radix * y) 0 (Nat.digits radix n) := by
          congr 1
          funext x y
          ring
      _ = n := h.symm

lemma bigDigits_lt (hr : 1 < radix) (hd : d ∈ bigDigits radix n) :
    d < radix := by
  unfold bigDigits at hd
  split at hd
  · simp at hd
    omega
  · exact Nat.digits_lt_base hr (mem_reverse.mp hd)

lemma bigDigits_length_pos (radix n : Nat) : 0 < (bigDigits radix n).length := by
  unfold bigDigits
  split
  · simp
  · next h =>
    rw [length_reverse]
    exact length_pos_of_ne_nil (Nat.digits_ne_nil_iff_ne_zero.mpr h)

lemma bigDigits_length_le (hr : 1 < radix) (hn : n < radix ^ m) (hm : 0 < m) :
    (bigDigits radix n).length ≤ m := by
  unfold bigDigits
  split
  · exact hm
  · rw [length_reverse]
    exact (Nat.digits_length_le_iff hr _).mpr hn

lemma head_bigDigits (h : (bigDigits radix n).head? = some 0) :
    (bigDigits radix n).length = 1 := by
  unfold bigDigits at h ⊢
  split at h
  · next hn => simp [hn]
  · next hn =>
    exfalso
    have hne : Nat.digits radix n ≠ [] := Nat.digits_ne_nil_iff_ne_zero.mpr hn
    rw [head?_reverse, getLast?_eq_getLast_of_ne_nil hne] at h
    exact Nat.getLast_digit_ne_zero radix hn (Option.some.inj h)

lemma readNumber_show (allowZeroPrefix : Bool) (hr : 1 < radix) (hr' : radix ≤ 16) (hn : n < bound)
    (hmax : ∀ m, maxDigits = some m → 0 < m ∧ n < radix ^ m) (hrest : NoDigit radix rest) :
    readNumber radix bound maxDigits allowZeroPrefix (showRadix radix n ++ rest) =
      some (n, rest) := by
  have hpos := bigDigits_length_pos radix n
  have hfold := foldl_bigDigits radix n
  have hguard : ∀ k' n', k' ≤ 0 + (bigDigits radix n).length → n' ≤ n →
      digitGuard bound maxDigits k' n' = true := by
    cases maxDigits with
    | none =>
      simp only [digitGuard, decide_eq_true_eq]
      omega
    | some m =>
      obtain ⟨hm0, hlt⟩ := hmax m rfl
      have := bigDigits_length_le hr hlt hm0
      simp only [digitGuard, decide_eq_true_eq]
      omega
  have hread := readDigits_append hr' hrest (bigDigits radix n) 0 0
    (fun d hd => bigDigits_lt hr hd) (by rw [hfold]; exact hguard)
  rw [hfold, Nat.zero_add] at hread
  change readDigits radix _ (showRadix radix n ++ rest) 0 0 = _ at hread
  -- a leading zero is printed for zero alone, as its only digit
  have hzero : (showRadix radix n ++ rest).head? = some 48 →
      (bigDigits radix n).length = 1 := by
    intro h48
    apply head_bigDigits
    cases hd : bigDigits radix n with
    | nil => simp [hd] at hpos
    | cons d ds =>
      have hlt : d < radix := bigDigits_lt hr (hd ▸ mem_cons_self)
      have hbyte : digitByte d = 48 := by simpa [showRadix, hd] using h48
      have hval := toDigit_digitByte hr' hlt
      rw [hbyte] at hval
      simp [toDigit, isAsciiDigit] at hval
      simp [hval.2]
  have hprefix : (!allowZeroPrefix &&
      (showRadix radix n ++ rest).head? == some 48 &&
      decide (1 < (bigDigits radix n).length)) = false := by
    by_cases h48 : (showRadix radix n ++ rest).head? = some 48
    · simp [hzero h48]
    · rw [beq_eq_false_iff_ne.mpr h48, Bool.and_false, Bool.false_and]
  simp only [readNumber, hread, hprefix, hn, if_true, if_neg (by omega :
    ¬ (bigDigits radix n).length = 0), Bool.false_eq_true, if_false]

def readGivenChar (c : UInt8) : Bytes → Option Bytes
  | [] => none
  | b :: s => if b == c then some s else none

/-- `read_separator`: from the second element on, `sep` comes first. -/
def readSeparator {α : Type} (sep : UInt8) (index : Nat) (inner : Reader α) :
    Reader α := fun s =>
  if 0 < index then
    match readGivenChar sep s with
    | some s' => inner s'
    | none => none
  else inner s

def readOctet : Reader Nat :=
  readNumber 10 256 (some 3) false

def readGroup : Reader Nat :=
  readNumber 16 65536 (some 4) true

def readIpv4Addr : Reader Ipv4Addr := fun s => do
  let (a, s) ← readSeparator 46 0 readOctet s
  let (b, s) ← readSeparator 46 1 readOctet s
  let (c, s) ← readSeparator 46 2 readOctet s
  let (d, s) ← readSeparator 46 3 readOctet s
  return (⟨UInt8.ofNat a, UInt8.ofNat b, UInt8.ofNat c, UInt8.ofNat d⟩, s)

/-- `read_groups`: up to `left` further segments, the next one at position
`index`. With two or more left an embedded IPv4 address is tried first. The
flag tells whether one ended the list. -/
def readGroups : (left index : Nat) → Bytes → List UInt16 × Bool × Bytes
  | 0, _, s => ([], false, s)
  | left + 1, index, s =>
    let ipv4 := if 0 < left then readSeparator 58 index readIpv4Addr s else none
    match ipv4 with
    | some (v4, s') => ([segmentOf v4.a v4.b, segmentOf v4.c v4.d], true, s')
    | none =>
      match readSeparator 58 index readGroup s with
      | none => ([], false, s)
      | some (g, s') =>
        let (gs, v4, s'') := readGroups left (index + 1) s'
        (UInt16.ofNat g :: gs, v4, s'')

/-- The address with these segments, the missing ones being zero. -/
def ofSegments (l : List UInt16) : Ipv6Addr :=
  ⟨l.getD 0 0, l.getD 1 0, l.getD 2 0, l.getD 3 0,
    l.getD 4 0, l.getD 5 0, l.getD 6 0, l.getD 7 0⟩

def readIpv6Addr : Reader Ipv6Addr := fun s =>
  match readGroups 8 0 s with
  | (head, headIpv4, s) =>
    if head.length = 8 then some (ofSegments head, s)
    -- an IPv4 part is not allowed before `::`
    else if headIpv4 then none
    else do
      let s ← readGivenChar 58 s
      let s ← readGivenChar 58 s
      -- `::` stands for one segment at least
      match readGroups (8 - (head.length + 1)) 0 s with
      | (tail, _, s) =>
        some (ofSegments (head ++
          List.replicate (8 - head.length - tail.length) 0 ++ tail), s)

def readIpAddr : Reader IpAddr := fun s =>
  match readIpv4Addr s with
  | some (ip, s) => some (.v4 ip, s)
  | none => (readIpv6Addr s).map fun (ip, s) => (.v6 ip, s)

def readPort : Reader UInt16 := fun s => do
  let s ← readGivenChar 58 s
  let (port, s) ← readNumber 10 65536 none true s
  return (UInt16.ofNat port, s)

def readScopeId : Reader UInt32 := fun s => do
  let s ← readGivenChar 37 s
  let (scope, s) ← readNumber 10 4294967296 none true s
  return (UInt32.ofNat scope, s)

def readSocketAddrV4 : Reader SocketAddr := fun s => do
  let (ip, s) ← readIpv4Addr s
  let (port, s) ← readPort s
  return (.v4 ip port, s)

def readSocketAddrV6 : Reader SocketAddr := fun s => do
  let s ← readGivenChar 91 s
  let (ip, s) ← readIpv6Addr s
  let (scope, s) := (readScopeId s).getD (0, s)
  let s ← readGivenChar 93 s
  let (port, s) ← readPort s
  return (.v6 ip port 0 scope, s)

/-- `parse_with`: the whole input has to be consumed. -/
def parseWith {α : Type} (reader : Reader α) (s : Bytes) : Option α :=
  match reader s with
  | some (a, []) => some a
  | _ => none

/-- `IpAddr::from_str`. -/
def parseIpAddr (s : Bytes) : Option IpAddr :=
  parseWith readIpAddr s

/-- `SocketAddr::from_str`. -/
def parseSocketAddr (s : Bytes) : Option SocketAddr :=
  parseWith (fun s =>
    match readSocketAddrV4 s with
    | some r => some r
    | none => readSocketAddrV6 s) s

/-- `u8::from_str` and its wider siblings: an optional plus sign, then at least
one digit and nothing else. -/
def parseUnsigned (bound : Nat) (s : Bytes) : Option Nat :=
  match s with
  | 43 :: rest => parseWith (readNumber 10 bound none true) rest
  | _ => parseWith (readNumber 10 bound none true) s

def showIpv4 (ip : Ipv4Addr) : Bytes :=
  showRadix 10 ip.a.toNat ++ 46 :: (showRadix 10 ip.b.toNat ++
    46 :: (showRadix 10 ip.c.toNat ++ 46 :: showRadix 10 ip.d.toNat))

/-- A run of zero segments. -/
structure Span where
  start : Nat
  len : Nat

/-- One round of the search for the longest run: the longest so far, the run
that ends here, and the position. -/
def spanStep (st : Span × Span × Nat) (segment : UInt16) : Span × Span × Nat :=
  let (longest, current, i) := st
  if segment = 0 then
    let current : Span :=
      ⟨if current.len = 0 then i else current.start, current.len + 1⟩
    (if longest.len < current.len then current else longest, current, i + 1)
  else
    (longest, ⟨0, 0⟩, i + 1)

def zeroSpan (segments : List UInt16) : Span :=
  (segments.foldl spanStep (⟨0, 0⟩, ⟨0, 0⟩, 0)).1

/-- `fmt_subslice`, started at position `index`: colons stand between the
segments. -/
def showGroups : Nat → List UInt16 → Bytes
  | _, [] => []
  | index, g :: gs =>
    (if 0 < index then [58] else []) ++
      (showRadix 16 g.toNat ++ showGroups (index + 1) gs)

def showIpv6 (ip : Ipv6Addr) : Bytes :=
  match ip.toIpv4Mapped with
  | some v4 => lit "::ffff:" ++ showIpv4 v4
  | none =>
    let zeroes := zeroSpan ip.segments
    if 1 < zeroes.len then
      showGroups 0 (ip.segments.take zeroes.start) ++ (lit "::" ++
        showGroups 0 (ip.segments.drop (zeroes.start + zeroes.len)))
    else
      showGroups 0 ip.segments

def showIpAddr : IpAddr → Bytes
  | .v4 ip => showIpv4 ip
  | .v6 ip => showIpv6 ip

def showSocketAddr : SocketAddr → Bytes
  | .v4 ip port => showIpv4 ip ++ 58 :: showRadix 10 port.toNat
  | .v6 ip port _ scopeId =>
    91 :: (showIpv6 ip ++
      ((if scopeId = 0 then [] else 37 :: showRadix 10 scopeId.toNat) ++
        93 :: 58 :: showRadix 10 port.toNat))

section RoundTrip

lemma noDigit_nil (radix : Nat) : NoDigit radix [] := by
  rintro b r h
  cases h

variable {radix : Nat}

lemma noDigit_cons (h : toDigit radix b = none) (s : Bytes) :
    NoDigit radix (b :: s) := by
  rintro b' r hb
  cases hb
  exact h

lemma NoDigit.decimal (h : NoDigit 16 s) : NoDigit 10 s := by
  rintro b r rfl
  have hb := h b r rfl
  simp only [toDigit] at hb ⊢
  grind

lemma readNumber_none
    (h : NoDigit radix s) : readNumber radix bound maxDigits allowZeroPrefix s = none := by
  cases s with
  | nil => rfl
  | cons b s => simp [readNumber, readDigits, h b s rfl]

lemma readDigits_suffix :
    ∀ {s : Bytes} {n k n' k' : Nat} {rest : Bytes},
      readDigits radix ok s n k = some (n', k', rest) → rest <:+ s
  | [], _, _, _, _, _, h => by
      simp only [readDigits, Option.some.injEq, Prod.mk.injEq] at h
      exact h.2.2 ▸ suffix_refl _
  | b :: s, n, k, n', k', rest, h => by
      simp only [readDigits] at h
      cases hd : toDigit radix b with
      | none =>
        simp only [hd, Option.some.injEq, Prod.mk.injEq] at h
        exact h.2.2 ▸ suffix_refl _
      | some d =>
        simp only [hd] at h
        split at h
        · exact (readDigits_suffix h).trans (suffix_cons b s)
        · cases h

lemma readNumber_suffix (h : readNumber radix bound maxDigits allowZeroPrefix s = some (n, rest)) :
    rest <:+ s := by
  simp only [readNumber] at h
  split at h
  · cases h
  · next hd =>
    have hs := readDigits_suffix hd
    grind

lemma readIpv4Addr_none_of_no_dot (h : 46 ∉ s) : readIpv4Addr s = none := by
  cases hr : readOctet s with
  | none => simp [readIpv4Addr, readSeparator, hr]
  | some r =>
    obtain ⟨n, rest⟩ := r
    have hmem : 46 ∉ rest := fun hm => h ((readNumber_suffix hr).subset hm)
    have hnone : readGivenChar 46 rest = none := by
      cases rest with
      | nil => rfl
      | cons b r =>
        have hb : b ≠ 46 := fun e => hmem (e ▸ mem_cons_self)
        simp [readGivenChar, hb]
    simp [readIpv4Addr, readSeparator, hr, hnone]

lemma readIpv4Addr_none_of_noDigit (h : NoDigit 10 s) : readIpv4Addr s = none := by
  have hr : readOctet s = none := readNumber_none h
  simp [readIpv4Addr, readSeparator, hr]

lemma readOctet_show (o : UInt8) (h : NoDigit 10 rest) :
    readOctet (showRadix 10 o.toNat ++ rest) = some (o.toNat, rest) := by
  have ho := o.toNat_lt
  apply readNumber_show false (by omega) (by omega) ho _ h
  rintro m ⟨⟩
  omega

lemma readGroup_show (g : UInt16) (h : NoDigit 16 rest) :
    readGroup (showRadix 16 g.toNat ++ rest) = some (g.toNat, rest) := by
  have hg := g.toNat_lt
  apply readNumber_show true (by omega) (by omega) hg _ h
  rintro m ⟨⟩
  omega

lemma readIpv4Addr_show (ip : Ipv4Addr) (h : NoDigit 10 rest) :
    readIpv4Addr (showIpv4 ip ++ rest) = some (ip, rest) := by
  have hdot : ∀ s, NoDigit 10 (46 :: s) := noDigit_cons (by decide)
  simp only [readIpv4Addr, showIpv4, readSeparator, readGivenChar,
    append_assoc, cons_append, Nat.lt_irrefl, if_false,
    readOctet_show _ (hdot _), Option.bind_eq_bind, Option.bind_some,
    Nat.zero_lt_succ, if_true, beq_self_eq_true, readOctet_show _ h,
    UInt8.ofNat_toNat]
  rfl

lemma dot_not_mem_showRadix (hr : 1 < radix) (hr' : radix ≤ 16) (n : Nat) :
    (46 : UInt8) ∉ showRadix radix n := by
  intro h
  obtain ⟨d, hd, h46⟩ := mem_map.mp h
  have := toDigit_digitByte hr' (bigDigits_lt hr hd)
  rw [h46] at this
  simp [toDigit, isAsciiDigit, isAsciiLowercase, isAsciiUppercase] at this

lemma dot_not_mem_showGroups (gs : List UInt16) (index : Nat) :
    (46 : UInt8) ∉ showGroups index gs := by
  induction gs generalizing index with
  | nil => simp [showGroups]
  | cons g gs ih =>
    have hg : (46 : UInt8) ∉ showRadix 16 g.toNat :=
      dot_not_mem_showRadix (by omega) (by omega) g.toNat
    simp only [showGroups, mem_append, not_or]
    refine ⟨?_, hg, ih (index + 1)⟩
    split <;> simp

lemma readSeparator_ipv4_none (index : Nat) (h : 46 ∉ s) :
    readSeparator 58 index readIpv4Addr s = none := by
  cases s with
  | nil =>
    cases index <;> simp [readSeparator, readGivenChar,
      readIpv4Addr_none_of_no_dot]
  | cons b s =>
    have hs : 46 ∉ s := fun hm => h (mem_cons_of_mem b hm)
    cases index with
    | zero => simp [readSeparator, readIpv4Addr_none_of_no_dot h]
    | succ i =>
      by_cases hb : b = 58
      · simp [readSeparator, readGivenChar, hb, readIpv4Addr_none_of_no_dot hs]
      · simp [readSeparator, readGivenChar, hb]

lemma noDigit_showGroups (h : NoDigit 16 rest) (index : Nat) (gs : List UInt16) :
    NoDigit 16 (showGroups (index + 1) gs ++ rest) := by
  cases gs with
  | nil => exact h
  | cons g gs => exact noDigit_cons (by decide) _

lemma readGroups_show (hdot : 46 ∉ rest) (hrest : NoDigit 16 rest) :
    ∀ (gs : List UInt16) (left index : Nat),
      gs.length ≤ left →
      (gs.length < left →
        readSeparator 58 (index + gs.length) readGroup rest = none) →
      readGroups left index (showGroups index gs ++ rest) = (gs, false, rest)
  | [], 0, _, _, _ => rfl
  | [], left + 1, index, _, hstop => by
      have hstop' : readSeparator 58 index readGroup rest = none :=
        hstop (Nat.succ_pos left)
      simp only [showGroups, nil_append, readGroups,
        readSeparator_ipv4_none index hdot, ite_self, hstop']
  | g :: gs, left + 1, index, hlen, hstop => by
      have hnodot : (46 : UInt8) ∉ showGroups index (g :: gs) ++ rest := by
        simp only [mem_append, not_or]
        exact ⟨dot_not_mem_showGroups _ _, hdot⟩
      have hgroup : readSeparator 58 index readGroup
          (showGroups index (g :: gs) ++ rest) =
            some (g.toNat, showGroups (index + 1) gs ++ rest) := by
        have hg := readGroup_show g (noDigit_showGroups hrest index gs)
        cases index <;>
          simpa [readSeparator, showGroups, readGivenChar] using hg
      have ih := readGroups_show hdot hrest gs left (index + 1)
        (by simpa using hlen)
        (fun hlt => by
          have := hstop (by simpa using hlt)
          rwa [length_cons, Nat.add_comm gs.length 1,
            ← Nat.add_assoc] at this)
      simp only [readGroups, readSeparator_ipv4_none index hnodot, ite_self,
        hgroup, ih, UInt16.ofNat_toNat]

/-- The run lies in the list and consists of zeros. -/
def Span.In (run : Span) (l : List UInt16) : Prop :=
  ∃ u v, l = u ++ (List.replicate run.len 0 ++ v) ∧ u.length = run.start

/-- What the search knows after the segments `l`: the longest run is a run of
`l`, the current one ends `l` unless it is empty. -/
def SpanInv (l : List UInt16) (st : Span × Span × Nat) : Prop :=
  st.1.In l ∧ st.2.2 = l.length ∧
    (st.2.1.len ≠ 0 → ∃ u, l = u ++ List.replicate st.2.1.len 0 ∧
      u.length = st.2.1.start)

lemma Span.In.append {run : Span} (h : run.In l) (w : List UInt16) :
    run.In (l ++ w) := by
  obtain ⟨u, v, rfl, hu⟩ := h
  exact ⟨u, v ++ w, by simp, hu⟩

lemma spanStep_inv
    (h : SpanInv l st) (segment : UInt16) : SpanInv (l ++ [segment]) (spanStep st segment) := by
  obtain ⟨longest, current, i⟩ := st
  obtain ⟨hlong, rfl, hcur⟩ := h
  by_cases hz : segment = 0
  · subst hz
    have hnew : ∃ u, l ++ [0] = u ++ List.replicate (current.len + 1) 0 ∧
        u.length = if current.len = 0 then l.length else current.start := by
      by_cases hlen : current.len = 0
      · exact ⟨l, by simp [hlen], by simp [hlen]⟩
      · obtain ⟨u, hl, hu⟩ := hcur hlen
        refine ⟨u, ?_, by simpa [hlen] using hu⟩
        rw [replicate_succ', ← append_assoc, ← hl]
    simp only [spanStep, if_true]
    refine ⟨?_, by simp, fun _ => hnew⟩
    split
    · obtain ⟨u, hl, hu⟩ := hnew
      exact ⟨u, [], by simpa using hl, hu⟩
    · exact hlong.append [0]
  · simp only [spanStep, hz]
    exact ⟨hlong.append [segment], by simp, fun h => absurd rfl h⟩

lemma zeroSpan_in (l : List UInt16) : (zeroSpan l).In l := by
  have hrun : ∀ (w l : List UInt16) (st : Span × Span × Nat),
      SpanInv l st → SpanInv (l ++ w) (w.foldl spanStep st) := by
    intro w
    induction w with
    | nil =>
      intro l st h
      simpa using h
    | cons g w ih =>
      intro l st h
      simpa using ih (l ++ [g]) _ (spanStep_inv h g)
  have hstart : SpanInv [] (⟨0, 0⟩, ⟨0, 0⟩, 0) :=
    ⟨⟨[], [], rfl, rfl⟩, rfl, fun h => absurd rfl h⟩
  exact (hrun l [] _ hstart).1

lemma ofSegments_segments (ip : Ipv6Addr) :
    ofSegments ip.segments = ip := rfl

/-- What may follow a printed IPv6 address: the end, a scope or a bracket. -/
def EndsIpv6 (rest : Bytes) : Prop :=
  46 ∉ rest ∧ NoDigit 16 rest ∧ readGivenChar 58 rest = none

lemma readIpv6Addr_compressed (hrest : EndsIpv6 rest) (u v : List UInt16)
    (hlen : u.length + 2 + v.length ≤ 8) :
    readIpv6Addr (showGroups 0 u ++ (lit "::" ++ (showGroups 0 v ++ rest))) =
      some (ofSegments (u ++ List.replicate (8 - u.length - v.length) 0 ++ v),
        rest) := by
  obtain ⟨hdot, hdigit, hcolon⟩ := hrest
  have hlit : lit "::" = [58, 58] := rfl
  have hcol : ∀ s, NoDigit 16 (58 :: s) := noDigit_cons (by decide)
  have hhead : readGroups 8 0
      (showGroups 0 u ++ (lit "::" ++ (showGroups 0 v ++ rest))) =
        (u, false, lit "::" ++ (showGroups 0 v ++ rest)) := by
    apply readGroups_show
    · simp only [mem_append, not_or]
      exact ⟨by decide, dot_not_mem_showGroups _ _, hdot⟩
    · exact hcol _
    · omega
    · intro _
      have hnone : ∀ s, readGroup (58 :: s) = none :=
        fun s => readNumber_none (hcol s)
      cases u <;> simp [hlit, readSeparator, readGivenChar, hnone]
  have htail : readGroups (8 - (u.length + 1)) 0 (showGroups 0 v ++ rest) =
      (v, false, rest) := by
    apply readGroups_show hdot hdigit
    · omega
    · intro _
      have hnone : readGroup rest = none := readNumber_none hdigit
      cases v <;> simp [readSeparator, hnone, hcolon]
  simp only [readIpv6Addr, hhead, if_neg (by omega : ¬ u.length = 8)]
  simp only [hlit, cons_append, nil_append, readGivenChar,
    Bool.false_eq_true, if_false, beq_self_eq_true, if_true,
    Option.bind_eq_bind, Option.bind_some, htail]

lemma readIpv6Addr_show (ip : Ipv6Addr) (hrest : EndsIpv6 rest) :
    readIpv6Addr (showIpv6 ip ++ rest) = some (ip, rest) := by
  cases hm : ip.toIpv4Mapped with
  | some v4 =>
    rw [Ipv6Addr.toIpv4Mapped_eq_some_iff] at hm
    have hshow : showIpv6 ip = lit "::ffff:" ++ showIpv4 v4 := by
      rw [← Ipv6Addr.toIpv4Mapped_eq_some_iff] at hm
      simp only [showIpv6, hm]
    have hcol : ∀ s, NoDigit 16 (58 :: s) := noDigit_cons (by decide)
    have hf : ∀ s, NoDigit 10 (102 :: s) := noDigit_cons (by decide)
    have hgroup : ∀ s, readGroup (102 :: 102 :: 102 :: 102 :: 58 :: s) =
        some (65535, 58 :: s) :=
      fun s => readGroup_show 0xffff (hcol s)
    have hv4 := readIpv4Addr_show v4 hrest.2.1.decimal
    have hnone : ∀ s, readGroup (58 :: s) = none :=
      fun s => readNumber_none (hcol s)
    rw [hshow, hm]
    simp [readIpv6Addr, readGroups, readSeparator, readGivenChar,
      show lit "::ffff:" = [58, 58, 102, 102, 102, 102, 58] from rfl,
      readIpv4Addr_none_of_noDigit (hcol _).decimal, hnone,
      readIpv4Addr_none_of_noDigit (hf _), hgroup, hv4]
    rfl
  | none =>
    obtain ⟨u, v, hsegs, hu⟩ := zeroSpan_in ip.segments
    generalize hspan : zeroSpan ip.segments = run at hsegs hu
    have hlen : u.length + (run.len + v.length) = 8 := by
      have := congrArg List.length hsegs
      simpa [ip.length_segments] using this.symm
    by_cases hz : 1 < run.len
    · have hshow : showIpv6 ip =
          showGroups 0 u ++ (lit "::" ++ showGroups 0 v) := by
        simp only [showIpv6, hm, hspan, if_pos hz]
        simp [hsegs, ← hu]
      rw [hshow, append_assoc, append_assoc,
        readIpv6Addr_compressed hrest u v (by omega)]
      rw [show 8 - u.length - v.length = run.len by omega,
        append_assoc, ← hsegs, ofSegments_segments]
    · have hshow : showIpv6 ip = showGroups 0 ip.segments := by
        simp only [showIpv6, hm, hspan, if_neg hz]
      have hgroups : readGroups 8 0 (showGroups 0 ip.segments ++ rest) =
          (ip.segments, false, rest) :=
        readGroups_show hrest.1 hrest.2.1 ip.segments 8 0 (le_refl 8)
          (fun h => absurd h (Nat.lt_irrefl 8))
      rw [hshow]
      simp only [readIpv6Addr, hgroups]
      rfl

lemma readPort_show (port : UInt16) :
    readPort (58 :: showRadix 10 port.toNat) = some (port, []) := by
  have hp := port.toNat_lt
  have hnum : readNumber 10 65536 none true (showRadix 10 port.toNat ++ []) =
      some (port.toNat, []) :=
    readNumber_show true (by omega) (by omega) hp (by rintro m ⟨⟩)
      (noDigit_nil 10)
  rw [append_nil] at hnum
  simp [readPort, readGivenChar, hnum]

/-- **A printed socket address reads back as itself**, whatever its address,
port and scope; the flow label is not part of the text. -/
theorem parseSocketAddr_show (addr : SocketAddr) :
    parseSocketAddr (showSocketAddr addr) =
      some (match addr with
        | .v4 ip port => .v4 ip port
        | .v6 ip port _ scopeId => .v6 ip port 0 scopeId) := by
  cases addr with
  | v4 ip port =>
    have hcol : NoDigit 10 (58 :: showRadix 10 port.toNat) :=
      noDigit_cons (by decide) _
    simp [parseSocketAddr, parseWith, showSocketAddr, readSocketAddrV4,
      readIpv4Addr_show ip hcol, readPort_show]
  | v6 ip port flowinfo scopeId =>
    have hnum : ∀ n, (46 : UInt8) ∉ showRadix 10 n :=
      dot_not_mem_showRadix (by omega) (by omega)
    have hv4 : ∀ s, readSocketAddrV4 (91 :: s) = none := by
      intro s
      have : readIpv4Addr (91 :: s) = none :=
        readIpv4Addr_none_of_noDigit (noDigit_cons (by decide) s)
      simp [readSocketAddrV4, this]
    by_cases hscope : scopeId = 0
    · have hends : EndsIpv6 (93 :: 58 :: showRadix 10 port.toNat) :=
        ⟨by simp [hnum], noDigit_cons (by decide) _, rfl⟩
      simp [parseSocketAddr, parseWith, showSocketAddr, hv4, hscope,
        readSocketAddrV6, readGivenChar, readScopeId,
        readIpv6Addr_show ip hends, readPort_show]
    · have hends : EndsIpv6 (37 :: (showRadix 10 scopeId.toNat ++
          93 :: 58 :: showRadix 10 port.toNat)) :=
        ⟨by simp [hnum], noDigit_cons (by decide) _, rfl⟩
      have hnumber : readNumber 10 4294967296 none true
          (showRadix 10 scopeId.toNat ++ 93 :: 58 :: showRadix 10 port.toNat) =
            some (scopeId.toNat, 93 :: 58 :: showRadix 10 port.toNat) :=
        readNumber_show true (by omega) (by omega) scopeId.toNat_lt
          (by rintro m ⟨⟩) (noDigit_cons (by decide) _)
      simp [parseSocketAddr, parseWith, showSocketAddr, hv4, hscope,
        readSocketAddrV6, readGivenChar, readScopeId,
        readIpv6Addr_show ip hends, hnumber, readPort_show]

/-- **A printed address reads back as itself.** -/
theorem parseIpAddr_show (ip : IpAddr) : parseIpAddr (showIpAddr ip) = some ip := by
  cases ip with
  | v4 ip =>
    have hread := readIpv4Addr_show ip (noDigit_nil 10)
    rw [append_nil] at hread
    simp [parseIpAddr, parseWith, readIpAddr, showIpAddr, hread]
  | v6 ip =>
    have hends : EndsIpv6 [] := ⟨not_mem_nil, noDigit_nil 16, rfl⟩
    have hread := readIpv6Addr_show ip hends
    rw [append_nil] at hread
    have hv4 : readIpv4Addr (showIpv6 ip) = none := by
      cases hm : ip.toIpv4Mapped with
      | some v4 =>
        simp only [showIpv6, hm]
        exact readIpv4Addr_none_of_noDigit (noDigit_cons (by decide) _)
      | none =>
        refine readIpv4Addr_none_of_no_dot ?_
        simp only [showIpv6, hm]
        split
        · simp only [mem_append, not_or]
          exact ⟨dot_not_mem_showGroups _ _, by decide, dot_not_mem_showGroups _ _⟩
        · exact dot_not_mem_showGroups _ _
    simp [parseIpAddr, parseWith, readIpAddr, showIpAddr, hv4, hread]

/-- The bytes of a printed address. -/
def isAddrByte (b : UInt8) : Bool :=
  isAsciiDigit b || (97 ≤ b && b ≤ 102) || b == 46 || b == 58

lemma isAddrByte_dot : isAddrByte 46 = true := rfl

lemma isAddrByte_colon : isAddrByte 58 = true := rfl

lemma isAddrByte_showRadix (hr : 1 < radix) (hr' : radix ≤ 16) (n : Nat) :
    ∀ b ∈ showRadix radix n, isAddrByte b = true := by
  intro b hb
  obtain ⟨d, hd, rfl⟩ := mem_map.mp hb
  have hd16 : d < 16 := Nat.lt_of_lt_of_le (bigDigits_lt hr hd) hr'
  exact (by decide : ∀ d < 16, isAddrByte (digitByte d) = true) d hd16

lemma isAddrByte_showGroups (gs : List UInt16) (index : Nat) :
    ∀ b ∈ showGroups index gs, isAddrByte b = true := by
  induction gs generalizing index with
  | nil => simp [showGroups]
  | cons g gs ih =>
    simp only [showGroups, forall_mem_append]
    refine ⟨?_, isAddrByte_showRadix (by omega) (by omega) _, ih (index + 1)⟩
    split
    · simpa using isAddrByte_colon
    · simp

lemma isAddrByte_showIpv4 (ip : Ipv4Addr) : ∀ b ∈ showIpv4 ip, isAddrByte b = true := by
  have hnum : ∀ n, ∀ b ∈ showRadix 10 n, isAddrByte b = true :=
    isAddrByte_showRadix (by omega) (by omega)
  simp only [showIpv4, forall_mem_append, forall_mem_cons]
  exact ⟨hnum _, isAddrByte_dot, hnum _, isAddrByte_dot, hnum _, isAddrByte_dot, hnum _⟩

lemma isAddrByte_showIpAddr (ip : IpAddr) : ∀ b ∈ showIpAddr ip, isAddrByte b = true := by
  cases ip with
  | v4 ip => exact isAddrByte_showIpv4 ip
  | v6 ip =>
    simp only [showIpAddr, showIpv6]
    split
    · have hmapped : ∀ b ∈ lit "::ffff:", isAddrByte b = true := by decide +kernel
      exact forall_mem_append.mpr ⟨hmapped, isAddrByte_showIpv4 _⟩
    · split
      · have hgap : ∀ b ∈ lit "::", isAddrByte b = true := by decide +kernel
        simp only [forall_mem_append]
        exact ⟨isAddrByte_showGroups _ _, hgap, isAddrByte_showGroups _ _⟩
      · exact isAddrByte_showGroups _ _

end RoundTrip

end FastAdHunter.Net
