import FastAdHunter.Api.Lists
import FastAdHunter.Lib.Lines
import FastAdHunter.Lib.Words

/-!
# Rules typed by hand

The lines of a request are parsed as one text, and any line that fails refuses
them all. What is stored leaves out the lines that repeat an earlier one. The
parser reads both texts line by line, but which parser it is depends on a vote
over the lines, and repeated lines vote each time.
-/

namespace FastAdHunter.Api

open Lib Net Rules
open List hiding format next

/-- A line that is neither blank nor a comment. -/
def isRuleLine (rule : Bytes) : Bool :=
  let key := trim rule
  !key.isEmpty && !startsWith [ch '#'] key && !startsWith [ch '!'] key

def dropRepeats : List Bytes → List Bytes → List Bytes
  | _, [] => []
  | seen, rule :: rest =>
    if isRuleLine rule then
      if seen.contains (trim rule) then dropRepeats seen rest
      else rule :: dropRepeats (trim rule :: seen) rest
    else rule :: dropRepeats seen rest

/-- The message about one failed line. -/
def invalidLine (text : Bytes) (number : Nat) : List Piece :=
  [.lit "line ", .text (showRadix 10 number), .lit ": invalid rule syntax: ",
    .debug (trim ((lines text).getD (number - 1) []))]

/-- What is wrong with the rules of a request, if anything is. -/
def validateUserRules (text : Bytes) : Option (List Piece) :=
  let parsed := parseRuleList text
  if parsed.parseErrors = 0 then none
  else
    let problems := parsed.parseErrorLines.map (invalidLine text)
    let unreported := parsed.parseErrors - problems.length
    let problems :=
      if 0 < unreported then
        problems ++ [[.lit "and ", .text (showRadix 10 unreported), .lit " more invalid line(s)"]]
      else problems
    some (List.intercalate [.lit "; "] problems)

/-- The text that a request stores, and the rules it answers with. -/
def putUserRules (body : List Bytes) : Except ApiError (Bytes × List Bytes) :=
  match validateUserRules (joinBy 10 body) with
  | some message => .error (.validationFailed message)
  | none =>
    let rules := dropRepeats [] body
    .ok (joinBy 10 rules ++ [10], rules)

section Repeats

variable {body seen : List Bytes} {rule : Bytes}

lemma mem_of_mem_dropRepeats (h : rule ∈ dropRepeats seen body) : rule ∈ body := by
  induction body generalizing seen with
  | nil => exact h
  | cons first body ih =>
    rw [dropRepeats] at h
    split at h
    · split at h
      · exact mem_cons_of_mem first (ih h)
      · rcases mem_cons.mp h with rfl | h
        · exact mem_cons_self
        · exact mem_cons_of_mem first (ih h)
    · rcases mem_cons.mp h with rfl | h
      · exact mem_cons_self
      · exact mem_cons_of_mem first (ih h)

lemma exists_mem_dropRepeats (seen : List Bytes) (h : rule ∈ body) :
    trim rule ∈ seen ∨ ∃ kept ∈ dropRepeats seen body, trim kept = trim rule := by
  induction body generalizing seen with
  | nil => cases h
  | cons first body ih =>
    rw [dropRepeats]
    rcases mem_cons.mp h with rfl | h
    · split
      · split
        next hseen => exact .inl (by simpa using hseen)
        · exact .inr ⟨rule, mem_cons_self, rfl⟩
      · exact .inr ⟨rule, mem_cons_self, rfl⟩
    · split
      · split
        · exact ih seen h
        · rcases ih (trim first :: seen) h with hmem | ⟨kept, hkept, heq⟩
          · rcases mem_cons.mp hmem with heq | hmem
            · exact .inr ⟨first, mem_cons_self, heq.symm⟩
            · exact .inl hmem
          · exact .inr ⟨kept, mem_cons_of_mem first hkept, heq⟩
      · rcases ih seen h with hmem | ⟨kept, hkept, heq⟩
        · exact .inl hmem
        · exact .inr ⟨kept, mem_cons_of_mem first hkept, heq⟩

lemma contents_stored (hbody : ∀ rule ∈ body, IsUtf8 rule) (line : Bytes) :
    line ∈ contents (joinBy 10 (dropRepeats [] body)) ↔ line ∈ contents (joinBy 10 body) := by
  simp only [contents_joinBy, mem_flatMap]
  constructor
  · rintro ⟨rule, hrule, hline⟩
    exact ⟨rule, mem_of_mem_dropRepeats hrule, hline⟩
  · rintro ⟨rule, hrule, hline⟩
    rcases exists_mem_dropRepeats [] hrule with hmem | ⟨kept, hkept, heq⟩
    · cases hmem
    · refine ⟨kept, hkept, ?_⟩
      rwa [← contents_trim (hbody kept (mem_of_mem_dropRepeats hkept)), heq,
        contents_trim (hbody rule hrule)]

end Repeats

section Parsing

variable {parseLine : Bytes → LineOutcome} {format : RuleFormat} {s s' : Bytes}

/-- A line parser that reads a line through its trimmed form and skips blank
ones. -/
structure ReadsTrimmed (parseLine : Bytes → LineOutcome) : Prop where
  congr : ∀ {l l'}, trim l = trim l' → parseLine l = parseLine l'
  blank : ∀ {l}, trim l = [] → parseLine l = .skip

lemma Hosts.readsTrimmed : ReadsTrimmed Hosts.parseLine where
  congr h := by simp only [Hosts.parseLine, h]
  blank h := by simp [Hosts.parseLine, h, isIgnorable]

lemma DomainList.readsTrimmed : ReadsTrimmed DomainList.parseLine where
  congr h := by simp only [DomainList.parseLine, h]
  blank h := by simp [DomainList.parseLine, h, isIgnorable]

lemma Adblock.readsTrimmed : ReadsTrimmed Adblock.parseLine where
  congr h := by simp only [Adblock.parseLine, h]
  blank h := by simp only [Adblock.parseLine, h]

lemma collectStep_spec (parseLine : Bytes → LineOutcome)
    (acc : List RuleKind × ParseErrorLog) (entry : Bytes × Nat) :
    ((collectStep parseLine acc entry).2.count = 0 ↔ acc.2.count = 0 ∧ parseLine entry.1 ≠ .error) ∧
    ∀ rule, rule ∈ (collectStep parseLine acc entry).1 ↔
      rule ∈ acc.1 ∨ ∃ rules, parseLine entry.1 = .rules rules ∧ rule ∈ rules := by
  simp only [collectStep]
  cases parseLine entry.1 with
  | skip => simp
  | error => simp [ParseErrorLog.record]
  | rules rules => simp

lemma foldl_collectStep_spec (parseLine : Bytes → LineOutcome) (entries : List (Bytes × Nat))
    (acc : List RuleKind × ParseErrorLog) :
    ((entries.foldl (collectStep parseLine) acc).2.count = 0 ↔
      acc.2.count = 0 ∧ ∀ entry ∈ entries, parseLine entry.1 ≠ .error) ∧
    ∀ rule, rule ∈ (entries.foldl (collectStep parseLine) acc).1 ↔
      rule ∈ acc.1 ∨ ∃ entry ∈ entries, ∃ rules, parseLine entry.1 = .rules rules ∧
        rule ∈ rules := by
  induction entries generalizing acc with
  | nil => simp
  | cons entry entries ih =>
    obtain ⟨hcount, hrules⟩ := collectStep_spec parseLine acc entry
    obtain ⟨ihcount, ihrules⟩ := ih (collectStep parseLine acc entry)
    rw [foldl_cons]
    refine ⟨?_, fun rule => ?_⟩
    · rw [ihcount, hcount, forall_mem_cons, and_assoc]
    · rw [ihrules, hrules, or_assoc, exists_mem_cons_iff]

lemma collectLines_spec (parseLine : Bytes → LineOutcome) (format : RuleFormat) (text : Bytes) :
    ((collectLines format parseLine text).parseErrors = 0 ↔
      ∀ l ∈ lines text, parseLine l ≠ .error) ∧
    ∀ rule, rule ∈ (collectLines format parseLine text).rules ↔
      ∃ l ∈ lines text, ∃ rules, parseLine l = .rules rules ∧ rule ∈ rules := by
  obtain ⟨hcount, hrules⟩ :=
    foldl_collectStep_spec parseLine (lines text).zipIdx ([], .empty)
  have hmem : ∀ l, l ∈ lines text ↔ ∃ entry ∈ (lines text).zipIdx, entry.1 = l := by
    intro l
    rw [← mem_map, zipIdx_map_fst]
  refine ⟨?_, fun rule => ?_⟩
  · refine hcount.trans ⟨fun h l hl => ?_, fun h => ⟨rfl, fun entry hentry => ?_⟩⟩
    · obtain ⟨entry, hentry, rfl⟩ := (hmem l).mp hl
      exact h.2 entry hentry
    · exact h entry.1 ((hmem _).mpr ⟨entry, hentry, rfl⟩)
  · refine (hrules rule).trans ⟨?_, ?_⟩
    · rintro (hnil | ⟨entry, hentry, h⟩)
      · cases hnil
      · exact ⟨entry.1, (hmem _).mpr ⟨entry, hentry, rfl⟩, h⟩
    · rintro ⟨l, hl, h⟩
      obtain ⟨entry, hentry, rfl⟩ := (hmem l).mp hl
      exact .inr ⟨entry, hentry, h⟩

lemma collectLines_congr (hread : ReadsTrimmed parseLine) (hs : IsUtf8 s) (hs' : IsUtf8 s')
    (h : ∀ line, line ∈ contents s → line ∈ contents s') (hl : l ∈ lines s) :
    parseLine l = .skip ∨ ∃ l' ∈ lines s', parseLine l' = parseLine l := by
  by_cases hblank : trim l = []
  · exact .inl (hread.blank hblank)
  · have hmem : trim l ∈ contents s := by
      rw [← contents_lines hs]
      exact mem_filter.mpr ⟨mem_map_of_mem hl, by simpa using hblank⟩
    have hmem' := h _ hmem
    rw [← contents_lines hs'] at hmem'
    obtain ⟨l', hl', heq⟩ := mem_map.mp (mem_filter.mp hmem').1
    exact .inr ⟨l', hl', hread.congr heq⟩

end Parsing

section Votes

variable {s : Bytes}

/-- The lines that vote on the format of a text. -/
def voters (s : Bytes) : List Bytes :=
  (contents s).filter fun line => !isIgnorable line

def votesFor (s : Bytes) (format : RuleFormat) : Nat :=
  (((voters s).take sampleLines).map classifyLine).count (some format)

lemma detectFormat_eq (hs : IsUtf8 s) :
    detectFormat s = if votesFor s .adblock < votesFor s .hosts ∧
        votesFor s .plainDomainList < votesFor s .hosts then .hosts
      else if votesFor s .plainDomainList < votesFor s .adblock ∧
        votesFor s .hosts < votesFor s .adblock then .adblock else .plainDomainList := by
  have hvoters : (((lines s).map trim).filter fun line => !isIgnorable line) = voters s := by
    rw [voters, ← contents_lines hs, filter_filter]
    refine filter_congr fun line _ => ?_
    cases line with
    | nil => rfl
    | cons b line => simp
  rw [detectFormat, hvoters]
  rfl

lemma detectFormat_append_newline (hs : IsUtf8 s) :
    detectFormat (s ++ [10]) = detectFormat s := by
  have hnewline : IsUtf8 (s ++ [10]) :=
    hs.append_text (.append (c := [10]) (by decide) .nil)
  have hvoters : voters (s ++ [10]) = voters s := by
    rw [voters, contents_append, contents_nil, append_nil, voters]
  have hvotes : ∀ format, votesFor (s ++ [10]) format = votesFor s format := fun format => by
    rw [votesFor, hvoters, votesFor]
  rw [detectFormat_eq hnewline, detectFormat_eq hs]
  simp only [hvotes]

lemma votesFor_of_all
    (h : ∀ line ∈ voters s, classifyLine line = some format) (other : RuleFormat) :
    votesFor s other = if format = other then ((voters s).take sampleLines).length else 0 := by
  have hsample : ∀ line ∈ (voters s).take sampleLines, classifyLine line = some format :=
    fun line hline => h line (mem_of_mem_take hline)
  rw [votesFor, map_eq_replicate_iff.mpr hsample, count_replicate]
  simp

lemma detectFormat_hosts (hs : IsUtf8 s) (hne : voters s ≠ [])
    (h : ∀ line ∈ voters s, classifyLine line = some .hosts) : detectFormat s = .hosts := by
  have hpos : 0 < ((voters s).take sampleLines).length := by
    rw [length_take]
    exact Nat.lt_min.mpr ⟨by decide, length_pos_iff.mpr hne⟩
  rw [detectFormat_eq hs, if_pos]
  simp only [votesFor_of_all h]
  exact ⟨hpos, hpos⟩

lemma detectFormat_domains (hs : IsUtf8 s)
    (h : ∀ line ∈ voters s, classifyLine line = some .plainDomainList) :
    detectFormat s = .plainDomainList := by
  rw [detectFormat_eq hs, if_neg, if_neg]
  · simp [votesFor_of_all h]
  · simp [votesFor_of_all h]

lemma exists_voter (hs : IsUtf8 s) (h : detectFormat s ≠ .plainDomainList) :
    ∃ line ∈ voters s, classifyLine line = some (detectFormat s) := by
  have hvote : ∀ format n, n < votesFor s format →
      ∃ line ∈ voters s, classifyLine line = some format := by
    intro format n hlt
    have hmem := count_pos_iff.mp (Nat.lt_of_le_of_lt (Nat.zero_le n) hlt)
    obtain ⟨line, hline, heq⟩ := mem_map.mp hmem
    exact ⟨line, mem_of_mem_take hline, heq⟩
  have hformat := detectFormat_eq hs
  split at hformat
  next hhosts =>
    rw [hformat]
    exact hvote _ _ hhosts.1
  · split at hformat
    next hadblock =>
      rw [hformat]
      exact hvote _ _ hadblock.1
    · exact absurd hformat h

end Votes

lemma Hosts.classify_of_accepted (h : Hosts.parseLine l ≠ .error)
    (hcontent : isIgnorable (trim l) = false) : classifyLine (trim l) = some .hosts := by
  simp only [Hosts.parseLine, hcontent, Bool.false_eq_true, if_false] at h
  cases hwords : splitWhitespace (trim l) with
  | nil => simp [hwords] at h
  | cons ip tokens =>
    simp only [hwords] at h
    split at h
    · exact absurd rfl h
    next hip =>
      split at h
      next hany =>
        cases tokens with
        | nil => simp at hany
        | cons token tokens =>
          have hip : looksLikeIp ip = true := by simpa using hip
          rw [classifyLine, hwords]
          simp [hip]
      · exact absurd rfl h

lemma looksLikeAdblock_of_domain (h : ∀ b ∈ s, isDomainByte b = true) :
    looksLikeAdblock s = false := by
  have hno : ∀ c, isDomainByte c = false → c ∉ s := fun c hc hmem => by
    rw [h c hmem] at hc
    cases hc
  have hfind : ∀ (p : Bytes) (c : UInt8), c ∈ p → isDomainByte c = false →
      (findStr p s).isSome = false := fun p c hp hc => by
    rw [findStr_eq_none hp (hno c hc)]
    rfl
  have hstarts : ∀ (p : Bytes) (c : UInt8), c ∈ p → isDomainByte c = false →
      startsWith p s = false := by
    intro p c hp hc
    cases hstrip : stripPrefix p s with
    | none => rw [startsWith, hstrip]; rfl
    | some rest =>
      have hs := (stripPrefix_eq_some_iff p s rest).mp hstrip
      exact absurd (by rw [hs]; exact mem_append_left _ hp) (hno c hc)
  have hends : endsWith [ch '|'] s = false := by
    cases hstrip : stripSuffix [ch '|'] s with
    | none => rw [endsWith, hstrip]; rfl
    | some rest =>
      have hs := (stripSuffix_eq_some_iff _ s rest).mp hstrip
      exact absurd (by rw [hs]; simp) (hno (ch '|') (by decide))
  have hcontains : ∀ c, isDomainByte c = false → s.contains c = false := fun c hc => by
    rw [← Bool.not_eq_true, contains_iff_mem]
    exact hno c hc
  have hdollar : splitBy (· == ch '$') s = [s] := splitBy_eq_singleton fun b hb => by
    rw [beq_eq_false_iff_ne]
    rintro rfl
    exact hno (ch '$') (by decide) hb
  have hbar : isDomainByte (ch '|') = false := by decide
  have hhash : isDomainByte (ch '#') = false := by decide
  rw [looksLikeAdblock, hstarts (lit "||") (ch '|') (by decide) hbar,
    hstarts (lit "@@") (ch '@') (by decide) (by decide), hstarts [ch '|'] (ch '|') (by decide) hbar,
    hends, hfind (lit "##") (ch '#') (by decide) hhash, hfind (lit "#@#") (ch '#') (by decide) hhash,
    hfind (lit "#?#") (ch '#') (by decide) hhash, hfind (lit "#$#") (ch '#') (by decide) hhash,
    hcontains (ch '^') (by decide), hcontains (ch '/') (by decide), hdollar]
  rfl

lemma isDomainByte_of_normalizeDomain (h : normalizeDomain (trim l) = some d) :
    trim l ≠ [] ∧ ∀ b ∈ trim l, isDomainByte b = true := by
  simp only [normalizeDomain, trim_trim] at h
  split at h
  · cases h
  next hne =>
    split at h
    · cases h
    next hall =>
      have hbytes : ∀ b ∈ trimEndMatches (ch '.') (trim l), isDomainByte b = true := by
        simpa using hall
      refine ⟨?_, fun b hb => ?_⟩
      · intro hnil
        rw [hnil] at hne
        exact hne rfl
      · -- what was trimmed at the end are dots
        have hsplit := takeWhile_append_dropWhile (p := (· == ch '.')) (l := (trim l).reverse)
        rw [← mem_reverse, ← hsplit] at hb
        rcases mem_append.mp hb with hb | hb
        · have hdot := mem_takeWhile_imp hb
          rw [beq_iff_eq] at hdot
          rw [hdot]
          decide
        · exact hbytes b (mem_reverse.mpr hb)

lemma DomainList.classify_of_accepted (h : DomainList.parseLine l ≠ .error)
    (hcontent : isIgnorable (trim l) = false) : classifyLine (trim l) = some .plainDomainList := by
  simp only [DomainList.parseLine, hcontent] at h
  cases hnormal : normalizeDomain (trim l) with
  | none => simp [hnormal] at h
  | some d =>
    obtain ⟨hne, hbytes⟩ := isDomainByte_of_normalizeDomain hnormal
    have hgraphic : ∀ b, isDomainByte b = true → isGraphic b = true := by decide +kernel
    have hbare : looksLikeBareDomain (trim l) = true := by
      simp only [looksLikeBareDomain, Bool.and_eq_true, all_eq_true]
      refine ⟨by simpa using hne, fun b hb => ?_⟩
      have hsame : ∀ b, isDomainByte b = true → (isAsciiAlphanumeric b || b == ch '.' ||
          b == ch '-' || b == ch '_') = true := by decide +kernel
      exact hsame b (hbytes b hb)
    rw [classifyLine, splitWhitespace_graphic (fun b hb => hgraphic b (hbytes b hb)) hne,
      looksLikeAdblock_of_domain hbytes, hbare]
    rfl

section Meaning

variable {s s' : Bytes}

def lineParser : RuleFormat → Bytes → LineOutcome
  | .hosts => Hosts.parseLine
  | .plainDomainList => DomainList.parseLine
  | .adblock => Adblock.parseLine

lemma parseRuleList_eq (text : Bytes) :
    parseRuleList text = collectLines (detectFormat text) (lineParser (detectFormat text)) text := by
  rw [parseRuleList]
  cases detectFormat text with
  | hosts => rfl
  | plainDomainList => rfl
  | adblock => rfl

lemma readsTrimmed_lineParser (format : RuleFormat) : ReadsTrimmed (lineParser format) := by
  cases format with
  | hosts => exact Hosts.readsTrimmed
  | plainDomainList => exact DomainList.readsTrimmed
  | adblock => exact Adblock.readsTrimmed

lemma classify_of_accepted (hformat : format ≠ .adblock)
    (h : lineParser format l ≠ .error) (hcontent : isIgnorable (trim l) = false) :
    classifyLine (trim l) = some format := by
  cases format with
  | hosts => exact Hosts.classify_of_accepted h hcontent
  | plainDomainList => exact DomainList.classify_of_accepted h hcontent
  | adblock => exact absurd rfl hformat

lemma exists_line_of_voter (hs : IsUtf8 s) (h : line ∈ voters s) :
    ∃ l ∈ lines s, trim l = line ∧ isIgnorable (trim l) = false := by
  obtain ⟨hmem, hcontent⟩ := mem_filter.mp h
  rw [← contents_lines hs] at hmem
  obtain ⟨l, hl, rfl⟩ := mem_map.mp (mem_filter.mp hmem).1
  exact ⟨l, hl, rfl, by simpa using hcontent⟩

lemma voters_of_accepted (hs : IsUtf8 s) (hformat : format ≠ .adblock)
    (h : ∀ l ∈ lines s, lineParser format l ≠ .error) :
    ∀ line ∈ voters s, classifyLine line = some format := by
  intro line hline
  obtain ⟨l, hl, rfl, hcontent⟩ := exists_line_of_voter hs hline
  exact classify_of_accepted hformat (h l hl) hcontent

lemma same_meaning (hs : IsUtf8 s) (hs' : IsUtf8 s')
    (hsame : ∀ line, line ∈ contents s ↔ line ∈ contents s')
    (hformat : detectFormat s = detectFormat s') (haccepted : (parseRuleList s').parseErrors = 0) :
    (parseRuleList s).parseErrors = 0 ∧
      ∀ rule, rule ∈ (parseRuleList s).rules ↔ rule ∈ (parseRuleList s').rules := by
  have hread := readsTrimmed_lineParser (detectFormat s')
  rw [parseRuleList_eq, parseRuleList_eq, hformat]
  rw [parseRuleList_eq] at haccepted
  obtain ⟨herrors, hrules⟩ := collectLines_spec (lineParser (detectFormat s')) (detectFormat s') s
  obtain ⟨herrors', hrules'⟩ :=
    collectLines_spec (lineParser (detectFormat s')) (detectFormat s') s'
  have hmoves : ∀ {t t' : Bytes}, IsUtf8 t → IsUtf8 t' →
      (∀ line, line ∈ contents t → line ∈ contents t') → ∀ rule,
      (∃ l ∈ lines t, ∃ rules, lineParser (detectFormat s') l = .rules rules ∧ rule ∈ rules) →
      ∃ l ∈ lines t', ∃ rules, lineParser (detectFormat s') l = .rules rules ∧ rule ∈ rules := by
    rintro t t' ht ht' hsub rule ⟨l, hl, rules, heq, hrule⟩
    rcases collectLines_congr hread ht ht' hsub hl with hskip | ⟨l', hl', hsame⟩
    · rw [hskip] at heq
      cases heq
    · exact ⟨l', hl', rules, hsame.trans heq, hrule⟩
  refine ⟨herrors.mpr fun l hl herror => ?_, fun rule => ?_⟩
  · rcases collectLines_congr hread hs hs' (fun line => (hsame line).mp) hl with
      hskip | ⟨l', hl', heq⟩
    · rw [hskip] at herror
      cases herror
    · exact herrors'.mp haccepted l' hl' (heq.trans herror)
  · rw [hrules, hrules']
    exact ⟨hmoves hs hs' (fun line => (hsame line).mp) rule,
      hmoves hs' hs (fun line => (hsame line).mpr) rule⟩

lemma detectFormat_eq_of_accepted (hs : IsUtf8 s) (hs' : IsUtf8 s')
    (hsame : ∀ line, line ∈ contents s ↔ line ∈ contents s')
    (h : (parseRuleList s).parseErrors = 0) (h' : (parseRuleList s').parseErrors = 0) :
    detectFormat s = detectFormat s' := by
  have hvoters : ∀ line, line ∈ voters s ↔ line ∈ voters s' := fun line => by
    rw [voters, voters, mem_filter, mem_filter, hsame]
  rw [parseRuleList_eq, (collectLines_spec _ _ s).1] at h
  rw [parseRuleList_eq, (collectLines_spec _ _ s').1] at h'
  cases hformat' : detectFormat s' with
  | hosts =>
    rw [hformat'] at h'
    have hall := voters_of_accepted hs' (by decide) h'
    obtain ⟨line, hline, -⟩ := exists_voter hs' (by rw [hformat']; decide)
    exact detectFormat_hosts hs (ne_nil_of_mem ((hvoters line).mpr hline))
      fun line hline => hall line ((hvoters line).mp hline)
  | plainDomainList =>
    rw [hformat'] at h'
    have hall := voters_of_accepted hs' (by decide) h'
    exact detectFormat_domains hs fun line hline => hall line ((hvoters line).mp hline)
  | adblock =>
    by_contra hne
    obtain ⟨line, hline, hvote⟩ := exists_voter hs' (by rw [hformat']; decide)
    have hother := voters_of_accepted hs hne h line ((hvoters line).mpr hline)
    rw [hvote, hformat', Option.some.injEq] at hother
    exact hne hother.symm

/-- **Stored rules mean what was validated** exactly when the vote on the format
over the lines without repeats comes out as over the lines that were sent: for
every request of lines of text that is accepted, the stored text then parses
without failure to the same rules, and otherwise it does not. -/
theorem user_rules_mean_validated_iff {body reply : List Bytes} {stored : Bytes}
    (hbody : ∀ rule ∈ body, IsUtf8 rule) (hput : putUserRules body = .ok (stored, reply)) :
    ((parseRuleList stored).parseErrors = 0 ∧ ∀ rule,
        rule ∈ (parseRuleList stored).rules ↔ rule ∈ (parseRuleList (joinBy 10 body)).rules) ↔
      detectFormat (joinBy 10 (dropRepeats [] body)) = detectFormat (joinBy 10 body) := by
  rw [putUserRules] at hput
  split at hput
  · cases hput
  next hvalid =>
    cases hput
    have haccepted : (parseRuleList (joinBy 10 body)).parseErrors = 0 := by
      by_contra herrors
      simp [validateUserRules, herrors] at hvalid
    have hsent : IsUtf8 (joinBy 10 body) := IsUtf8.joinBy_lines hbody
    have hkept : IsUtf8 (joinBy 10 (dropRepeats [] body)) :=
      IsUtf8.joinBy_lines fun rule hrule => hbody rule (mem_of_mem_dropRepeats hrule)
    have hstored : IsUtf8 (joinBy 10 (dropRepeats [] body) ++ [10]) :=
      hkept.append_text (.append (c := [10]) (by decide) .nil)
    have hsame : ∀ line, line ∈ contents (joinBy 10 (dropRepeats [] body) ++ [10]) ↔
        line ∈ contents (joinBy 10 body) := fun line => by
      rw [contents_append, contents_nil, append_nil, contents_stored hbody]
    rw [← detectFormat_append_newline hkept]
    constructor
    · intro hmeans
      exact detectFormat_eq_of_accepted hstored hsent hsame hmeans.1 haccepted
    · intro hformat
      exact same_meaning hstored hsent hsame hformat haccepted

/-- A rule twice, and a domain. -/
def outvotingBody : List Bytes :=
  [lit "||ads.example^", lit "||ads.example^", lit "shop.example"]

/-- **Repeats decide the format**: the request is accepted, and the text it stores
fails to parse. -/
theorem repeats_decide_the_format :
    ∃ stored reply, putUserRules outvotingBody = .ok (stored, reply) ∧
      (parseRuleList (joinBy 10 outvotingBody)).parseErrors = 0 ∧
      (parseRuleList stored).parseErrors = 1 := by
  refine ⟨lit "||ads.example^\nshop.example\n", [lit "||ads.example^", lit "shop.example"], ?_, ?_, ?_⟩
  all_goals decide +kernel

theorem user_rules_mean_validated_iff_outvoting :
    ((parseRuleList (lit "||ads.example^\nshop.example\n")).parseErrors = 0 ∧ ∀ rule,
        rule ∈ (parseRuleList (lit "||ads.example^\nshop.example\n")).rules ↔
          rule ∈ (parseRuleList (joinBy 10 outvotingBody)).rules) ↔
      detectFormat (joinBy 10 (dropRepeats [] outvotingBody)) =
        detectFormat (joinBy 10 outvotingBody) := by
  have hascii : ∀ s : Bytes, (∀ b ∈ s, b < 0x80) → IsUtf8 s := by
    intro s
    induction s with
    | nil => exact fun _ => .nil
    | cons b s ih =>
      intro h
      obtain ⟨hb, hs⟩ := forall_mem_cons.mp h
      exact .append (c := [b]) (by simpa [isUtf8Char] using hb) (ih hs)
  have hput : putUserRules outvotingBody = .ok (lit "||ads.example^\nshop.example\n",
      [lit "||ads.example^", lit "shop.example"]) := by decide +kernel
  refine user_rules_mean_validated_iff (fun rule hrule => hascii rule ?_) hput
  exact (by decide +kernel : ∀ rule ∈ outvotingBody, ∀ b ∈ rule, b < 0x80) rule hrule

end Meaning

end FastAdHunter.Api
