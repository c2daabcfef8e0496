import FastAdHunter.Dns.Lifetimes
import FastAdHunter.Dns.Names

/-!
# The question a refresh asks

A cache key holds the text of a name as the wire library shows it, in lower
case. A refresh reads that text back, and asks for the root when it cannot. The
text can be read back when every label is shown byte by byte, with the escapes
of the library, and holds only bytes the library takes in a label. A label in
`xn--` form that the library decodes is shown in Unicode, which it does not
read.
-/

namespace FastAdHunter.Dns

open Lib Net Rules List

/-- The bytes the wire library leaves as they are. A dot inside a label is
escaped when it is written and taken when it is read. -/
def isSafeAscii (first encoding : Bool) (b : UInt8) : Bool :=
  isAsciiAlphanumeric b || (b == ch '-' && !first) || b == ch '_' || (b == ch '*' && first) ||
    (b == ch '.' && !encoding)

def escapeByte (first : Bool) (b : UInt8) : Bytes :=
  if isSafeAscii first true b then [b]
  else if 32 < b && b < 127 then [ch '\\', b]
  else [ch '\\', 48 + b / 64, 48 + b / 8 % 8, 48 + b % 8]

def writeAscii : Bytes → Bytes
  | [] => []
  | b :: rest => escapeByte true b ++ rest.flatMap (escapeByte false)

def isSafeLabel : Bytes → Bool
  | [] => false
  | b :: rest => isSafeAscii true false b && rest.all (isSafeAscii false false)

/-- The lower-case text of some labels written byte by byte. -/
def writtenText (labels : List Bytes) : Bytes :=
  lower (joinBy (ch '.') (labels.map writeAscii) ++ [ch '.'])

def Name.lower (name : Name) : Name :=
  ⟨name.labels.map Lib.lower, by
    intro label hmem
    obtain ⟨original, horiginal, rfl⟩ := mem_map.mp hmem
    simpa [Lib.lower] using name.nonempty original horiginal⟩

/-- What the wire library does with the text of a name: a label is shown byte
by byte or in Unicode, a text outside ASCII is not read, and labels written byte
by byte are read when each of them is safe. -/
structure ReadsNames (lib : WireLibrary) : Prop where
  shown : ∀ label, lib.showLabel label = writeAscii label ∨
    ∃ b ∈ lib.showLabel label, 128 ≤ b
  rejects : ∀ text, (∃ b ∈ text, 128 ≤ b) → lib.fromAscii text = none
  reads : ∀ name : Name, lib.fromAscii (writtenText name.labels) =
    if ∀ label ∈ name.labels, isSafeLabel label = true then some name.lower else none

section Asking

variable (lib : WireLibrary)

/-- The key a question is cached under. -/
def keyOf (query : WireQuery) : CacheKey :=
  ⟨lower (domainOf lib query.name), query.queryType, query.queryClass⟩

/-- The refresh of a question asks one question: the same up to case. -/
def AsksOwnQuestion (id : UInt16) (query : WireQuery) : Prop :=
  ∃ asked, (refreshQuery lib id (keyOf lib query)).queries = [asked] ∧
    asked.name.labels.map lower = query.name.labels.map lower ∧
    asked.queryType = query.queryType ∧ asked.queryClass = query.queryClass

lemma refreshQuery_queries (id : UInt16) (query : WireQuery) :
    (refreshQuery lib id (keyOf lib query)).queries =
      [⟨(lib.fromAscii (lower (domainOf lib query.name))).getD .root, query.queryType,
        query.queryClass⟩] := rfl

variable {lib}

lemma toLower_high : ∀ b : UInt8, 128 ≤ b → toLower b = b := by
  decide +kernel

lemma joinBy_mem (hpart : part ∈ parts) (hb : b ∈ part) : b ∈ joinBy c parts := by
  induction parts with
  | nil => simp at hpart
  | cons head rest ih =>
    cases rest with
    | nil =>
      rw [mem_singleton.mp hpart] at hb
      exact hb
    | cons next rest =>
      rw [joinBy, mem_append, mem_cons]
      rcases mem_cons.mp hpart with rfl | hpart
      · exact .inl hb
      · exact .inr (.inr (ih hpart))

lemma high_mem_key (hlabel : label ∈ name.labels)
    (h : ∃ b ∈ lib.showLabel label, 128 ≤ b) : ∃ b ∈ lower (domainOf lib name), 128 ≤ b := by
  obtain ⟨b, hb, hhigh⟩ := h
  refine ⟨b, ?_, hhigh⟩
  have hmem : b ∈ domainOf lib name :=
    mem_append_left _ (joinBy_mem (mem_map_of_mem hlabel) hb)
  exact mem_map.mpr ⟨b, hmem, toLower_high b hhigh⟩

/-- **Which refreshes ask their own question.** The name of a question is read
back from its key exactly when every label is safe and is shown byte by byte. -/
theorem refresh_asks_own_question_iff (hlib : ReadsNames lib) (id : UInt16) (query : WireQuery) :
    AsksOwnQuestion lib id query ↔ ∀ label ∈ query.name.labels,
        isSafeLabel label = true ∧ lib.showLabel label = writeAscii label := by
  -- a text that is not read gives the root, which is none of the names with a label
  have hroot : lib.fromAscii (lower (domainOf lib query.name)) = none →
      query.name.labels ≠ [] → ¬ AsksOwnQuestion lib id query := by
    rintro hnone hlabels ⟨asked, hasked, hname, -⟩
    rw [refreshQuery_queries, hnone, singleton_inj] at hasked
    rw [← hasked] at hname
    exact hlabels (map_eq_nil_iff.mp hname.symm)
  by_cases hplain : ∀ label ∈ query.name.labels, lib.showLabel label = writeAscii label
  · have htext : lower (domainOf lib query.name) = writtenText query.name.labels := by
      rw [domainOf, map_congr_left hplain, writtenText]
    have hread := hlib.reads query.name
    rw [← htext] at hread
    by_cases hsafe : ∀ label ∈ query.name.labels, isSafeLabel label = true
    · rw [if_pos hsafe] at hread
      constructor
      · exact fun _ label hlabel => ⟨hsafe label hlabel, hplain label hlabel⟩
      · refine fun _ => ⟨_, refreshQuery_queries lib id query, ?_, rfl, rfl⟩
        rw [hread]
        simp [Name.lower]
    · rw [if_neg hsafe] at hread
      have hlabels : query.name.labels ≠ [] := by
        intro hnil
        simp [hnil] at hsafe
      constructor
      · exact fun hasks => absurd hasks (hroot hread hlabels)
      · exact fun hall => absurd (fun label hlabel => (hall label hlabel).1) hsafe
  · rw [not_forall] at hplain
    obtain ⟨label, hplain⟩ := hplain
    rw [Classical.not_imp] at hplain
    have hhigh := (hlib.shown label).resolve_left hplain.2
    have hnone := hlib.rejects _ (high_mem_key hplain.1 hhigh)
    constructor
    · exact fun hasks => absurd hasks (hroot hnone (ne_nil_of_mem hplain.1))
    · exact fun hall => absurd (hall label hplain.1).2 hplain.2

end Asking

/-- Where the reader of a label is. -/
inductive ParseState where
  | label
  | escape
  | octal (first : UInt8)
  | octals (first second : UInt8)

def isOctal (b : UInt8) : Bool := 48 ≤ b && b ≤ 55

/-- The labels of a text, the bytes of the current one given. -/
def readLabels : ParseState → Bytes → Bytes → List Bytes
  | _, current, [] => if current = [] then [] else [current]
  | .label, current, b :: rest =>
    if b = ch '\\' then readLabels .escape current rest
    else if b = ch '.' then current :: readLabels .label [] rest
    else readLabels .label (current ++ [b]) rest
  | .escape, current, b :: rest =>
    if isOctal b then readLabels (.octal b) current rest
    else readLabels .label (current ++ [b]) rest
  | .octal first, current, b :: rest => readLabels (.octals first b) current rest
  | .octals first second, current, b :: rest =>
    readLabels .label
      (current ++ [64 * (first - 48) + 8 * (second - 48) + (b - 48)]) rest

lemma ne_nil_of_isSafeLabel (h : isSafeLabel label = true) : label ≠ [] := by
  rintro rfl
  cases h

def readName (text : Bytes) : Option Name :=
  if text.any (128 ≤ ·) then none
  else if text = [ch '.'] then some .root
  else
    if h : (readLabels .label [] text).all isSafeLabel then
      some ⟨readLabels .label [] text, fun label hlabel =>
        ne_nil_of_isSafeLabel (all_eq_true.mp h label hlabel)⟩
    else none

lemma escapeByte_safe : ∀ b : UInt8, ∀ first, isSafeAscii first true b = true →
    toLower b ≠ ch '\\' ∧ toLower b ≠ ch '.' := by
  decide +kernel

lemma escapeByte_printed : ∀ b : UInt8, ∀ first, isSafeAscii first true b = false →
    isOctal b = false ∧ toLower b = b := by
  decide +kernel

lemma escapeByte_octal : ∀ b : UInt8,
    toLower (48 + b / 64) = 48 + b / 64 ∧ toLower (48 + b / 8 % 8) = 48 + b / 8 % 8 ∧
      toLower (48 + b % 8) = 48 + b % 8 ∧ isOctal (48 + b / 64) = true ∧
      64 * (48 + b / 64 - 48) + 8 * (48 + b / 8 % 8 - 48) + (48 + b % 8 - 48) = b := by
  decide +kernel

lemma toLower_backslash : toLower (ch '\\') = ch '\\' := by decide

lemma readLabels_backslash (current rest : Bytes) :
    readLabels .label current (ch '\\' :: rest) = readLabels .escape current rest := by
  rw [readLabels, if_pos rfl]

lemma readLabels_escapeByte (first : Bool) (b : UInt8) (current rest : Bytes) :
    readLabels .label current (lower (escapeByte first b) ++ rest) =
      readLabels .label (current ++ [toLower b]) rest := by
  rw [escapeByte]
  cases hsafe : isSafeAscii first true b with
  | true =>
    obtain ⟨hslash, hdot⟩ := escapeByte_safe b first hsafe
    rw [if_pos rfl, lower_cons, lower_nil, cons_append, nil_append, readLabels,
      if_neg hslash, if_neg hdot]
  | false =>
    obtain ⟨hoctal, hlower⟩ := escapeByte_printed b first hsafe
    rw [if_neg Bool.false_ne_true]
    split
    · rw [lower_cons, toLower_backslash, lower_cons, lower_nil, hlower, cons_append,
        readLabels_backslash, cons_append, readLabels, hoctal, if_neg Bool.false_ne_true]
      rfl
    · obtain ⟨h1, h2, h3, h4, hvalue⟩ := escapeByte_octal b
      rw [lower_cons, toLower_backslash, lower_cons, lower_cons, lower_cons, lower_nil, h1, h2, h3,
        hlower, cons_append, readLabels_backslash]
      simp only [cons_append, nil_append]
      rw [readLabels, if_pos h4, readLabels, readLabels, hvalue]

lemma readLabels_escapeBytes (bytes current rest : Bytes) :
    readLabels .label current (lower (bytes.flatMap (escapeByte false)) ++ rest) =
      readLabels .label (current ++ lower bytes) rest := by
  induction bytes generalizing current with
  | nil => simp
  | cons b bytes ih =>
    rw [flatMap_cons, lower_append, append_assoc, readLabels_escapeByte, ih]
    simp

lemma readLabels_writeAscii (label rest : Bytes) :
    readLabels .label [] (lower (writeAscii label) ++ rest) =
      readLabels .label (lower label) rest := by
  cases label with
  | nil => rfl
  | cons b bytes =>
    rw [writeAscii, lower_append, append_assoc, readLabels_escapeByte,
      readLabels_escapeBytes]
    rfl

lemma readLabels_dot (current rest : Bytes) :
    readLabels .label current (ch '.' :: rest) = current :: readLabels .label [] rest := by
  rw [readLabels, if_neg (by decide), if_pos rfl]

lemma readLabels_writtenText (hne : labels ≠ []) :
    readLabels .label [] (writtenText labels) = labels.map lower := by
  have hend : lower [ch '.'] = [ch '.'] := by decide
  induction labels with
  | nil => exact absurd rfl hne
  | cons label labels ih =>
    cases labels with
    | nil =>
      rw [writtenText, lower_append, hend]
      simp only [map_cons, map_nil, joinBy]
      rw [readLabels_writeAscii, readLabels_dot]
      rfl
    | cons next labels =>
      have hrest := ih (cons_ne_nil _ _)
      rw [writtenText, lower_append, hend] at hrest ⊢
      simp only [map_cons, joinBy] at hrest ⊢
      rw [lower_append, lower_cons, toLower_dot, append_assoc, readLabels_writeAscii,
        cons_append, readLabels_dot, hrest]

lemma escapeByte_ascii (b : UInt8) (first : Bool) :
    ∀ c ∈ lower (escapeByte first b), c < 128 := by
  have hall : ∀ b first, (lower (escapeByte first b)).all (· < 128) = true := by decide +kernel
  exact fun c hc => of_decide_eq_true (all_eq_true.mp (hall b first) c hc)

lemma escapeByte_dotless : ∀ b : UInt8, ∀ first, b ≠ ch '.' → ch '.' ∉ escapeByte first b := by
  decide +kernel

lemma escapeByte_verbatim (b : UInt8) (first : Bool)
    (h : ∀ c ∈ escapeByte first b, isDomainByte c = true) :
    escapeByte first b = [b] ∧ b ≠ ch '.' := by
  have hall : ∀ b first, (escapeByte first b).all isDomainByte = true →
      escapeByte first b = [b] ∧ b ≠ ch '.' := by
    decide +kernel
  exact hall b first (all_eq_true.mpr h)

lemma isSafeAscii_toLower : ∀ b : UInt8, ∀ first,
    isSafeAscii first false (toLower b) = isSafeAscii first false b := by
  decide +kernel

lemma isSafeLabel_lower (label : Bytes) : isSafeLabel (lower label) = isSafeLabel label := by
  cases label with
  | nil => rfl
  | cons b rest =>
    rw [lower_cons, isSafeLabel, isSafeLabel, isSafeAscii_toLower, lower, all_map]
    exact congrArg _ (congrArg (rest.all ·) (funext fun c => isSafeAscii_toLower c false))

lemma mem_writeAscii (h : c ∈ writeAscii label) :
    ∃ b ∈ label, ∃ first, c ∈ escapeByte first b := by
  cases label with
  | nil => simp [writeAscii] at h
  | cons b rest =>
    rw [writeAscii, mem_append, mem_flatMap] at h
    rcases h with h | ⟨b', hb', h⟩
    · exact ⟨b, mem_cons_self, true, h⟩
    · exact ⟨b', mem_cons_of_mem _ hb', false, h⟩

lemma flatMap_escapeByte_verbatim {rest : Bytes}
    (h : ∀ c ∈ rest.flatMap (escapeByte false), isDomainByte c = true) :
    rest.flatMap (escapeByte false) = rest ∧ ch '.' ∉ rest := by
  induction rest with
  | nil => exact ⟨rfl, not_mem_nil⟩
  | cons b rest ih =>
    rw [flatMap_cons] at h ⊢
    obtain ⟨hb, hdot⟩ := escapeByte_verbatim b false fun c hc => h c (mem_append_left _ hc)
    obtain ⟨hrest, hdots⟩ := ih fun c hc => h c (mem_append_right _ hc)
    rw [hb, hrest, mem_cons, not_or]
    exact ⟨rfl, fun e => hdot e.symm, hdots⟩

lemma writeAscii_verbatim (h : ∀ c ∈ writeAscii label, isDomainByte c = true) :
    writeAscii label = label ∧ ch '.' ∉ label := by
  cases label with
  | nil => exact ⟨rfl, not_mem_nil⟩
  | cons b rest =>
    rw [writeAscii] at h ⊢
    obtain ⟨hb, hdot⟩ := escapeByte_verbatim b true fun c hc => h c (mem_append_left _ hc)
    obtain ⟨hrest, hdots⟩ := flatMap_escapeByte_verbatim fun c hc =>
      h c (mem_append_right _ hc)
    rw [hb, hrest, mem_cons, not_or]
    exact ⟨rfl, fun e => hdot e.symm, hdots⟩

lemma mem_joinBy (h : b ∈ joinBy c parts) :
    b = c ∨ ∃ part ∈ parts, b ∈ part := by
  induction parts with
  | nil => simp [joinBy] at h
  | cons part rest ih =>
    cases rest with
    | nil => exact .inr ⟨part, mem_cons_self, h⟩
    | cons next rest =>
      rw [joinBy, mem_append, mem_cons] at h
      rcases h with h | h | h
      · exact .inr ⟨part, mem_cons_self, h⟩
      · exact .inl h
      · refine (ih h).imp_right ?_
        rintro ⟨part', hpart', hb⟩
        exact ⟨part', mem_cons_of_mem _ hpart', hb⟩

lemma writtenText_ascii (labels : List Bytes) : (writtenText labels).any (128 ≤ ·) = false := by
  rw [any_eq_false]
  intro c hc hhigh
  rw [decide_eq_true_eq] at hhigh
  obtain ⟨c', hc', rfl⟩ := mem_map.mp hc
  rcases mem_append.mp hc' with hjoined | hdot
  · rcases mem_joinBy hjoined with rfl | ⟨part, hpart, hmem⟩
    · exact absurd hhigh (by decide)
    · obtain ⟨label, -, rfl⟩ := mem_map.mp hpart
      obtain ⟨b, -, first, hb⟩ := mem_writeAscii hmem
      exact absurd hhigh (UInt8.not_le.mpr
        (escapeByte_ascii b first _ (mem_map_of_mem hb)))
  · rw [mem_singleton.mp hdot] at hhigh
    exact absurd hhigh (by decide)

/-- A wire library that shows labels byte by byte, knows one label in `xn--`
form, and reads names as above. -/
def readingLibrary : WireLibrary where
  fromVec := fun _ => none
  toVec := fun _ => some []
  truncate := id
  showLabel := fun label =>
    if label = lit "xn--nxasmq6b" then
      [0xce, 0xb2, 0xcf, 0x8c, 0xce, 0xbb, 0xce, 0xbf, 0xcf, 0x83]
    else writeAscii label
  fromAscii := readName
  oneLabel := by
    intro label hdot
    split
    · decide
    · intro hmem
      obtain ⟨b, hb, first, hshown⟩ := mem_writeAscii hmem
      exact escapeByte_dotless b first (fun e => hdot (e ▸ hb)) hshown
  verbatim := by
    intro label hbytes
    split at hbytes
    · exact absurd (hbytes 0xce (by decide)) (by decide)
    · next hlabel =>
      rw [if_neg hlabel]
      exact writeAscii_verbatim hbytes

lemma readsNames_readingLibrary : ReadsNames readingLibrary where
  shown := by
    intro label
    by_cases hlabel : label = lit "xn--nxasmq6b"
    · refine .inr ⟨0xce, ?_, by decide⟩
      show 0xce ∈ ite _ _ _
      rw [if_pos hlabel]
      exact mem_cons_self
    · exact .inl (if_neg hlabel)
  rejects := by
    rintro text ⟨b, hb, hhigh⟩
    exact if_pos (any_eq_true.mpr ⟨b, hb, decide_eq_true hhigh⟩)
  reads := by
    intro name
    show readName (writtenText name.labels) = _
    rw [readName, writtenText_ascii, if_neg Bool.false_ne_true]
    by_cases hnil : name.labels = []
    · have hroot : name.lower = .root := by
        simp only [Name.lower, hnil]
        rfl
      rw [hnil, if_pos (by decide), if_pos (by simp), hroot]
    · have hread := readLabels_writtenText hnil
      have hdot : writtenText name.labels ≠ [ch '.'] := by
        intro hdot
        rw [hdot, readLabels_dot] at hread
        have hempty : ([] : Bytes) ∈ name.labels.map lower := hread ▸ mem_cons_self
        exact name.lower.nonempty [] hempty rfl
      have hsafe : ((readLabels .label [] (writtenText name.labels)).all isSafeLabel = true) ↔
          ∀ label ∈ name.labels, isSafeLabel label = true := by
        rw [hread, all_map, all_eq_true]
        exact forall₂_congr fun label _ => by rw [Function.comp, isSafeLabel_lower]
      rw [if_neg hdot]
      by_cases hall : ∀ label ∈ name.labels, isSafeLabel label = true
      · rw [dif_pos (hsafe.mpr hall), if_pos hall]
        simp only [Name.lower, hread]
      · rw [dif_neg (mt hsafe.mp hall), if_neg hall]

def plainQuery : WireQuery :=
  ⟨⟨[lit "Ads", lit "example"], by decide⟩, 1, 1⟩

theorem refresh_asks_own_question_iff_plain :
    ReadsNames readingLibrary ∧ (AsksOwnQuestion readingLibrary 1 plainQuery ↔
        ∀ label ∈ plainQuery.name.labels,
          isSafeLabel label = true ∧ readingLibrary.showLabel label = writeAscii label) :=
  ⟨readsNames_readingLibrary,
    refresh_asks_own_question_iff readsNames_readingLibrary 1 plainQuery⟩

/-- The reply of an upstream that is asked for an address of the root. -/
def rootReply : Message :=
  (Message.response 1 .query).addQuery ⟨.root, 1, 1⟩

/-- The refresh of a name with a label in `xn--` form asks for the root, and what
the root answers is kept as "no such address" for the name. -/
theorem refresh_asks_for_root :
    let key := keyOf readingLibrary punycodeQuery
    let config : DnsCacheConfig := ⟨10000, 16777216, 0, 86400, 3600, true⟩
    let cache := (DnsCache.new config (seconds 5) fun _ => ⟨0, by decide⟩).run ⟨8, 56, 64⟩
      [(0, .store key rootReply)]
    (refreshQuery readingLibrary 1 key).queries = rootReply.queries ∧
      punycodeQuery.name ≠ .root ∧
      cache.lookup key (seconds 60) = .fresh ⟨[], [], .noError⟩ 3540 := by
  decide +kernel

end FastAdHunter.Dns
