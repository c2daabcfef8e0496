import FastAdHunter.Rules.UrlTier.Exact
import FastAdHunter.Rules.UrlTier.Keys
import Mathlib.Data.List.DropRight

/-!
# Every matched URL offers the pattern's keys

Whatever key a pattern is filed under, a URL that the pattern matches has the
same key: a token bounded on both sides is a token of the URL, one bounded on
one side begins or ends a token of the URL, and a window of a literal run is a
window of the URL.
-/

namespace FastAdHunter.Rules.Url

open Lib Wildcard List

/-- A maximal run of token bytes, with its neighbours. -/
structure IsToken (s : Bytes) (t : Token) (a c : Bytes) : Prop where
  split : s = a ++ t.text ++ c
  before : a.getLast? = t.before
  after : c.head? = t.after
  ne_nil : t.text ≠ []
  bytes : ∀ b ∈ t.text, isTokenByte b = true
  left : ∀ b, t.before = some b → isTokenByte b = false
  right : ∀ b, t.after = some b → isTokenByte b = false

lemma isToken_of_mem (pre : Bytes)
    (hpre : pre.getLast? = before) (hbefore : ∀ b, before = some b → isTokenByte b = false)
    (hcurrent : ∀ b ∈ current, isTokenByte b = true) (h : t ∈ tokensFrom before current s) :
    ∃ a c, IsToken (pre ++ current ++ s) t a c := by
  induction s generalizing pre before current with
  | nil =>
    rw [tokensFrom] at h
    split at h
    · simp at h
    · next hne =>
      rw [mem_singleton.mp h]
      exact ⟨pre, [], by simp, hpre, rfl, by simpa using hne, hcurrent, hbefore, by simp⟩
  | cons b s ih =>
    rw [tokensFrom] at h
    split at h
    · next hb =>
      obtain ⟨a, c, ht⟩ := ih pre hpre hbefore (by
        intro d hd
        rcases mem_append.mp hd with hd | hd
        · exact hcurrent d hd
        · rw [mem_singleton.mp hd]
          exact hb) h
      exact ⟨a, c, by simpa using ht⟩
    · next hb =>
      rw [Bool.not_eq_true] at hb
      have hbyte : ∀ d, some b = some d → isTokenByte d = false := by
        rintro d ⟨⟩
        exact hb
      have hrest : t ∈ tokensFrom (some b) [] s →
          ∃ a c, IsToken (pre ++ current ++ b :: s) t a c := by
        intro ht
        obtain ⟨a, c, ht⟩ := ih (pre ++ current ++ [b]) (by simp) hbyte
          (by simp) ht
        exact ⟨a, c, by simpa using ht⟩
      split at h
      · exact hrest h
      · next hne =>
        rcases mem_cons.mp h with rfl | h
        · exact ⟨pre, b :: s, rfl, hpre, rfl, by simpa using hne, hcurrent, hbefore,
            hbyte⟩
        · exact hrest h

lemma run_unique {x y c d : Bytes}
    (hx : ∀ b ∈ x, isTokenByte b = true) (hy : ∀ b ∈ y, isTokenByte b = true)
    (hc : ∀ b, c.head? = some b → isTokenByte b = false)
    (hd : ∀ b, d.head? = some b → isTokenByte b = false) (h : x ++ c = y ++ d) : x = y ∧ c = d := by
  have hrun : ∀ u v : Bytes, (∀ b ∈ u, isTokenByte b = true) →
      (∀ b, v.head? = some b → isTokenByte b = false) →
      (u ++ v).takeWhile isTokenByte = u := by
    intro u v hu hv
    rw [takeWhile_append_of_pos hu]
    cases v with
    | nil => simp
    | cons b v => simp [hv b rfl]
  have hxy : x = y := by
    rw [← hrun x c hx hc, h, hrun y d hy hd]
  subst hxy
  exact ⟨rfl, append_cancel_left h⟩

lemma eq_nil_of_run (hrun : ∀ b ∈ run, isTokenByte b = true)
    (hlast : ∀ b, a.getLast? = some b → isTokenByte b = false) (h : run = a ++ rest) : a = [] := by
  by_contra hnil
  have hx := hlast _ (getLast?_eq_some_getLast hnil)
  have hmem : a.getLast hnil ∈ run := by
    rw [h]
    exact mem_append_left _ (getLast_mem hnil)
  rw [hrun _ hmem] at hx
  cases hx

lemma mem_tokensFrom {t : Token}
    (hcurrent : ∀ b ∈ current, isTokenByte b = true) (hsplit : current ++ s = a ++ (t.text ++ c))
    (hbefore : a.getLast?.or before = t.before) (hafter : c.head? = t.after) (hne : t.text ≠ [])
    (hbytes : ∀ b ∈ t.text, isTokenByte b = true)
    (hleft : ∀ b, t.before = some b → isTokenByte b = false)
    (hright : ∀ b, t.after = some b → isTokenByte b = false) : t ∈ tokensFrom before current s := by
  have hlast : ∀ b, a.getLast? = some b → isTokenByte b = false := by
    intro b hb
    apply hleft
    rw [← hbefore, hb]
    rfl
  have hhead : ∀ b, c.head? = some b → isTokenByte b = false := by
    intro b hb
    exact hright b (hafter ▸ hb)
  induction s generalizing before current a with
  | nil =>
    rw [append_nil] at hsplit
    have ha := eq_nil_of_run hcurrent hlast hsplit
    subst ha
    obtain ⟨hrun, hc⟩ := run_unique (d := c) hcurrent hbytes (c := []) (by simp) hhead
      (by simpa using hsplit)
    subst hc
    rw [tokensFrom, if_neg (by rw [hrun]; simpa using hne), mem_singleton]
    cases t with
    | mk tb text ta => exact Token.mk.injEq .. ▸ ⟨hbefore.symm, hrun.symm, hafter.symm⟩
  | cons b s ih =>
    rw [tokensFrom]
    split
    · next hb =>
      refine ih ?_ (by simpa using hsplit) hbefore hlast
      intro d hd
      rcases mem_append.mp hd with hd | hd
      · exact hcurrent d hd
      · rw [mem_singleton.mp hd]
        exact hb
    · next hb =>
      rw [Bool.not_eq_true] at hb
      -- the token is the run in progress, or lies behind the byte that ends it
      have hcases : (a = [] ∧ current = t.text ∧ b :: s = c) ∨
          ∃ a', a = current ++ b :: a' ∧ s = a' ++ (t.text ++ c) := by
        by_cases ha : a = []
        · left
          subst ha
          have hb' : ∀ d, (b :: s).head? = some d → isTokenByte d = false := by
            rintro d ⟨⟩
            exact hb
          exact ⟨rfl, run_unique hcurrent hbytes hb' hhead (by simpa using hsplit)⟩
        · right
          rcases append_eq_append_iff.mp hsplit with ⟨a', rfl, hs⟩ | ⟨a', hcur, -⟩
          · cases a' with
            | nil =>
              exact absurd (eq_nil_of_run hcurrent hlast
                (show current = (current ++ []) ++ [] by simp)) ha
            | cons d a' =>
              obtain ⟨rfl, rfl⟩ := List.cons.inj hs
              exact ⟨a', rfl, rfl⟩
          · exact absurd (eq_nil_of_run hcurrent hlast hcur) ha
      have hrest : ∀ a', a = current ++ b :: a' → s = a' ++ (t.text ++ c) →
          t ∈ tokensFrom (some b) [] s := by
        intro a' ha hs
        have hbefore' : a'.getLast?.or (some b) = t.before := by
          rw [← hbefore, ha, getLast?_append, getLast?_cons]
          cases a'.getLast? <;> rfl
        refine ih (by simp) (by simpa using hs) hbefore' ?_
        intro d hd
        apply hleft
        rw [← hbefore', hd]
        rfl
      rcases hcases with ⟨rfl, hrun, hc⟩ | ⟨a', ha, hs⟩
      · rw [if_neg (by rw [hrun]; simpa using hne)]
        subst hc
        refine mem_cons.mpr (.inl ?_)
        cases t with
        | mk tb text ta => exact Token.mk.injEq .. ▸ ⟨hbefore.symm, hrun.symm, hafter.symm⟩
      · split
        · exact hrest a' ha hs
        · exact mem_cons_of_mem _ (hrest a' ha hs)

/-- **The tokens of a text are its maximal runs of token bytes.** -/
theorem mem_tokens_iff (s : Bytes) (t : Token) : t ∈ tokens s ↔ ∃ a c, IsToken s t a c := by
  constructor
  · intro h
    obtain ⟨a, c, ht⟩ := isToken_of_mem [] rfl (by simp) (by simp) h
    exact ⟨a, c, by simpa using ht⟩
  · rintro ⟨a, c, ht⟩
    refine mem_tokensFrom (by simp) (a := a) (c := c) ?_ ?_ ht.after ht.ne_nil ht.bytes
      ht.left ht.right
    · simpa using ht.split
    · rw [ht.before]
      cases t.before <;> rfl

section Literals

variable {matchCase : Bool}

lemma isTokenByte_toLower : ∀ b : UInt8, isTokenByte (toLower b) = isTokenByte b := by
  decide +kernel

lemma isTokenByte_of_separator : ∀ b : UInt8, isSeparator b = true → isTokenByte b = false := by
  decide +kernel

lemma toLower_of_byteMatches (h : byteMatches pb b matchCase = true) :
    toLower b = toLower pb := by
  cases matchCase with
  | true =>
    have : pb = b := by simpa [byteMatches] using h
    rw [this]
  | false =>
    have : pb = toLower b := by simpa [byteMatches] using h
    rw [this, toLower_toLower]

lemma token_of_lower_eq (h : lower x = lower l)
    (hl : ∀ b ∈ l, isTokenByte b = true) : ∀ b ∈ x, isTokenByte b = true := by
  intro b hb
  have hmem : toLower b ∈ lower l := by
    rw [← h]
    exact mem_map_of_mem hb
  obtain ⟨d, hd, hlow⟩ := mem_map.mp hmem
  rw [← isTokenByte_toLower, ← hlow, isTokenByte_toLower]
  exact hl d hd

lemma consumes_literals (hl : ∀ b ∈ l, b ≠ ch '*' ∧ b ≠ ch '^')
    (h : Consumes (elems matchCase l) u v) : ∃ x, u = x ++ v ∧ lower x = lower l := by
  induction l generalizing u with
  | nil =>
    cases h
    exact ⟨[], rfl, rfl⟩
  | cons pb l ih =>
    have hpb := hl pb mem_cons_self
    rw [elems, map_cons, elemOf_literal (by simpa using hpb.1) (by simpa using hpb.2)] at h
    cases h with
    | one hb hc =>
      obtain ⟨x, rfl, hlow⟩ := ih (fun b hb => hl b (mem_cons_of_mem _ hb)) hc
      refine ⟨_ :: x, rfl, ?_⟩
      rw [lower_cons, lower_cons, hlow, toLower_of_byteMatches hb]

lemma delimiter_of_consumes (htoken : isTokenByte pb = false) (hstar : pb ≠ ch '*')
    (h : Consumes (elemOf matchCase pb :: rest) u v) :
    (u = [] ∧ Consumes rest [] v) ∨
      ∃ b t, u = b :: t ∧ isTokenByte b = false ∧ Consumes rest t v := by
  have hs : (pb == ch '*') = false := by simpa using hstar
  by_cases hc : (pb == ch '^') = true
  · rw [elemOf, hs, hc] at h
    cases h with
    | one hb hcons => exact .inr ⟨_, _, rfl, isTokenByte_of_separator _ hb, hcons⟩
    | atEnd hcons => exact .inl ⟨rfl, hcons⟩
  · rw [Bool.not_eq_true] at hc
    rw [elemOf_literal hs hc] at h
    cases h with
    | one hb hcons =>
      refine .inr ⟨_, _, rfl, ?_, hcons⟩
      rw [← isTokenByte_toLower, toLower_of_byteMatches hb, isTokenByte_toLower]
      exact htoken

lemma consumes_split (htext : ∀ b ∈ text, b ≠ ch '*' ∧ b ≠ ch '^')
    (h : Consumes (elems matchCase (a ++ text ++ c)) start r) :
    ∃ y x v, start = y ++ (x ++ v) ∧ lower x = lower text ∧
      Consumes (elems matchCase a) start (x ++ v) ∧ Consumes (elems matchCase c) v r := by
  rw [elems, map_append, map_append] at h
  obtain ⟨v, hat, hc⟩ := consumes_append.mp h
  obtain ⟨u, ha, ht⟩ := consumes_append.mp hat
  obtain ⟨x, rfl, hlow⟩ := consumes_literals htext ht
  obtain ⟨y, hy⟩ := ha.suffix
  exact ⟨y, x, v, hy.symm, hlow, ha, hc⟩

end Literals

section Boundaries

variable {matchCase endAnchored : Bool}

lemma boundary_of_startsAt
    (hanchor : anchor ≠ .anywhere) (h : StartsAt anchor url (hostSpan url).1 (hostSpan url).2 start)
    (hurl : url = front ++ start) : ∀ b, front.getLast? = some b → isTokenByte b = false := by
  obtain ⟨front', hurl', hwhere⟩ := h
  have hfront : front' = front := append_cancel_right (hurl'.symm.trans hurl)
  subst hfront
  intro b hb
  cases anchor with
  | start =>
    rw [hwhere] at hb
    cases hb
  | anywhere => exact absurd rfl hanchor
  | domain =>
    rcases hwhere with hlen | ⟨-, -, hdot⟩
    · cases hfind : findStr (lit "://") url with
      | none =>
        rw [hostSpan, hfind] at hlen
        rw [length_eq_zero_iff.mp hlen] at hb
        cases hb
      | some n =>
        -- the host starts behind the scheme's slashes
        obtain ⟨a, c, hsplit, ha⟩ := findStr_eq_some hfind
        rw [hostSpan, hfind] at hlen
        have hfront : front' = a ++ lit "://" := by
          have htake := congrArg (List.take (n + 3)) (hurl'.symm.trans hsplit)
          rw [take_append_of_le_length (by simp only [Option.elim] at hlen; omega),
            take_of_length_le (by simp only [Option.elim] at hlen; omega),
            take_append_of_le_length (by simp [ha, lit]),
            take_of_length_le (by simp [ha, lit])] at htake
          exact htake
        rw [hfront, getLast?_append] at hb
        cases hb
        decide
    · rw [hdot] at hb
      cases hb
      decide

lemma left_boundary (hstart : StartsAt anchor url (hostSpan url).1 (hostSpan url).2 start)
    (hurl : url = front ++ start) (hy : start = y ++ u) (hu : u ≠ [])
    (htoken : ∀ b, a.getLast? = some b → isTokenByte b = false)
    (hbound : a.getLast?.elim (anchor != .anywhere) (· != ch '*') = true)
    (h : Consumes (elems matchCase a) start u) :
    ∀ b, (front ++ y).getLast? = some b → isTokenByte b = false := by
  rcases eq_nil_or_concat a with rfl | ⟨a', pb, rfl⟩
  · cases h
    have hy' : y = [] := by simpa using hy
    rw [hy', append_nil]
    exact boundary_of_startsAt (by simpa using hbound) hstart hurl
  · rw [concat_eq_append, getLast?_concat] at htoken hbound
    rw [concat_eq_append, elems, map_append] at h
    obtain ⟨u', hu', hpb⟩ := consumes_append.mp h
    have hlast := delimiter_of_consumes (htoken pb rfl) (by simpa using hbound) hpb
    rcases hlast with ⟨rfl, hnil⟩ | ⟨b, t, rfl, hb, hrest⟩
    · cases hnil
      exact absurd rfl hu
    · cases hrest
      obtain ⟨y', hy'⟩ := hu'.suffix
      have heq : y = y' ++ [b] := by
        have : y ++ u = (y' ++ [b]) ++ u := by
          rw [← hy, ← hy']
          simp
        exact append_cancel_right this
      intro d hd
      rw [heq, ← append_assoc, getLast?_concat] at hd
      cases hd
      exact hb

lemma right_boundary (hend : endAnchored = true → r = [])
    (htoken : ∀ b, c.head? = some b → isTokenByte b = false)
    (hbound : c.head?.elim endAnchored (· != ch '*') = true)
    (h : Consumes (elems matchCase c) v r) : ∀ b, v.head? = some b → isTokenByte b = false := by
  cases c with
  | nil =>
    cases h
    rw [hend hbound]
    simp
  | cons pb c =>
    rcases delimiter_of_consumes (htoken pb rfl) (by simpa using hbound) h with
      ⟨rfl, -⟩ | ⟨b, t, rfl, hb, -⟩
    · simp
    · rintro d ⟨⟩
      exact hb

end Boundaries

section Reach

variable {matchCase endAnchored : Bool} {anchor : UrlAnchor} {pattern url : Bytes}

lemma hashKey_congr (h : lower a = lower b) (kind : KeyKind) :
    hashKey kind a = hashKey kind b := by
  have hfold : ∀ s : Bytes, hashKey kind s =
      (lower s).foldl (fun h b => (h ^^^ b.toUInt64) * 0x100000001b3) kind.seed := by
    intro s
    rw [hashKey, lower, foldl_map]
  rw [hfold, hfold, h]

lemma lower_take (s : Bytes) (n : Nat) : lower (s.take n) = (lower s).take n := by
  simp [lower]

lemma lower_drop (s : Bytes) (n : Nat) : lower (s.drop n) = (lower s).drop n := by
  simp [lower]

lemma exists_token_leading (hurl : url = A ++ (x ++ B)) (hne : x ≠ [])
    (hbytes : ∀ b ∈ x, isTokenByte b = true)
    (hleft : ∀ b, A.getLast? = some b → isTokenByte b = false) :
    ∃ t ∈ tokens url, ∃ more, t.text = x ++ more := by
  refine ⟨⟨A.getLast?, x ++ B.takeWhile isTokenByte, (B.dropWhile isTokenByte).head?⟩,
    (mem_tokens_iff _ _).mpr ⟨A, B.dropWhile isTokenByte, ?_⟩, _, rfl⟩
  refine ⟨?_, rfl, rfl, by simp [hne], ?_, hleft, ?_⟩
  · rw [hurl]
    simp
  · intro b hb
    rcases mem_append.mp hb with hb | hb
    · exact hbytes b hb
    · exact mem_takeWhile_imp hb
  · intro b hb
    have hhead : (B.dropWhile isTokenByte).head? = some b := hb
    have hnot := head?_dropWhile_not isTokenByte B
    rw [hhead] at hnot
    exact hnot

lemma exists_token_trailing (hurl : url = A ++ (x ++ B)) (hne : x ≠ [])
    (hbytes : ∀ b ∈ x, isTokenByte b = true)
    (hright : ∀ b, B.head? = some b → isTokenByte b = false) :
    ∃ t ∈ tokens url, ∃ more, t.text = more ++ x := by
  refine ⟨⟨(A.rdropWhile isTokenByte).getLast?, A.rtakeWhile isTokenByte ++ x, B.head?⟩,
    (mem_tokens_iff _ _).mpr ⟨A.rdropWhile isTokenByte, B, ?_⟩, _, rfl⟩
  refine ⟨?_, rfl, rfl, by simp [hne], ?_, ?_, hright⟩
  · have hA : A.rdropWhile isTokenByte ++ A.rtakeWhile isTokenByte = A := by
      rw [List.rdropWhile, List.rtakeWhile, ← reverse_append,
        takeWhile_append_dropWhile, reverse_reverse]
    rw [hurl, append_assoc, append_assoc, ← append_assoc (A.rdropWhile _), hA]
  · intro b hb
    rcases mem_append.mp hb with hb | hb
    · exact mem_rtakeWhile_imp hb
    · exact hbytes b hb
  · intro b hb
    by_cases hnil : A.rdropWhile isTokenByte = []
    · simp [hnil] at hb
    · have hlast := rdropWhile_last_not isTokenByte A hnil
      rw [getLast?_eq_some_getLast hnil, Option.some.injEq] at hb
      rw [← hb]
      simpa using hlast

lemma exists_token_exact (hurl : url = A ++ (x ++ B)) (hne : x ≠ [])
    (hbytes : ∀ b ∈ x, isTokenByte b = true)
    (hleft : ∀ b, A.getLast? = some b → isTokenByte b = false)
    (hright : ∀ b, B.head? = some b → isTokenByte b = false) : ∃ t ∈ tokens url, t.text = x :=
  ⟨⟨A.getLast?, x, B.head?⟩,
    (mem_tokens_iff _ _).mpr ⟨A, B, by rw [hurl]; simp, rfl, rfl, hne, hbytes, hleft, hright⟩,
    rfl⟩

lemma literal_of_token : ∀ b : UInt8, isTokenByte b = true → b ≠ ch '*' ∧ b ≠ ch '^' := by
  decide +kernel

/-- **A bounded key of the pattern is a key of every URL the pattern matches.** -/
theorem exists_token_of_indexKey
    (hm : PatternMatches anchor pattern url (hostSpan url).1 (hostSpan url).2 endAnchored matchCase) (hkey : key ∈ indexKeys pattern anchor endAnchored) :
    ∃ t ∈ tokens url, minTokenLen ≤ t.text.length ∧
      ∃ k ∈ probeKeys t.text, hashKey k.1 k.2 = hashKey key.1 key.2.1 := by
  obtain ⟨tok, htok, hsome⟩ := mem_filterMap.mp hkey
  obtain ⟨a, c, ht⟩ := (mem_tokens_iff pattern tok).mp htok
  obtain ⟨start, hstart, r, hcons, hend⟩ := hm
  obtain ⟨front, hurl, -⟩ := id hstart
  rw [ht.split] at hcons
  obtain ⟨y, x, v, hy, hlow, ha, hc⟩ :=
    consumes_split (fun b hb => literal_of_token b (ht.bytes b hb)) hcons
  have hlen : x.length = tok.text.length := by
    rw [← length_lower x, hlow, length_lower]
  have hne : x ≠ [] := by
    rintro rfl
    exact ht.ne_nil (length_eq_zero_iff.mp hlen.symm)
  have hbytes := token_of_lower_eq hlow ht.bytes
  have hsplit : url = (front ++ y) ++ (x ++ v) := by
    rw [hurl, hy]
    simp
  have hleft : tok.before.elim (anchor != .anywhere) (· != ch '*') = true →
      ∀ b, (front ++ y).getLast? = some b → isTokenByte b = false := by
    intro hbound
    rw [← ht.before] at hbound
    exact left_boundary hstart hurl hy (by simp [hne])
      (fun b hb => ht.left b (ht.before ▸ hb)) hbound ha
  have hright : tok.after.elim endAnchored (· != ch '*') = true →
      ∀ b, v.head? = some b → isTokenByte b = false := by
    intro hbound
    rw [← ht.after] at hbound
    exact right_boundary hend (fun b hb => ht.right b (ht.after ▸ hb)) hbound hc
  simp only at hsome
  split at hsome
  · cases hsome
  · next hmin =>
    rw [not_lt] at hmin
    split at hsome
    · next hl hr =>
      cases hsome
      obtain ⟨t, htmem, htext⟩ := exists_token_exact hsplit hne hbytes (hleft hl) (hright hr)
      refine ⟨t, htmem, by rw [htext, hlen]; exact hmin, (.exact, t.text), by simp [probeKeys],
        ?_⟩
      rw [htext]
      exact hashKey_congr hlow _
    · next hl hr =>
      cases hsome
      obtain ⟨t, htmem, more, htext⟩ := exists_token_leading hsplit hne hbytes (hleft hl)
      refine ⟨t, htmem, ?_, (.leading, t.text.take minTokenLen), by simp [probeKeys], ?_⟩
      · rw [htext, length_append]
        omega
      · apply hashKey_congr
        rw [htext, take_append_of_le_length (by omega), lower_take, hlow, lower_take]
    · next hl hr =>
      cases hsome
      obtain ⟨t, htmem, more, htext⟩ := exists_token_trailing hsplit hne hbytes (hright hr)
      refine ⟨t, htmem, ?_, (.trailing, t.text.drop (t.text.length - minTokenLen)),
        by simp [probeKeys], ?_⟩
      · rw [htext, length_append]
        omega
      · apply hashKey_congr
        have hdrop : t.text.drop (t.text.length - minTokenLen) =
            x.drop (x.length - minTokenLen) := by
          rw [htext, drop_append, drop_eq_nil_of_le (by simp; omega),
            nil_append]
          congr 1
          rw [length_append]
          omega
        rw [hdrop, lower_drop, hlow, ← lower_drop, hlen]
    · cases hsome

lemma mem_windows_iff (n : Nat) (s w : Bytes) :
    w ∈ windows n s ↔ ∃ a c, s = a ++ w ++ c ∧ w.length = n := by
  rw [windows, mem_filterMap]
  constructor
  · rintro ⟨t, ht, hw⟩
    split at hw
    · next hn =>
      cases hw
      obtain ⟨a, rfl⟩ := (mem_tails t s).mp ht
      exact ⟨a, t.drop n, by simp, by simpa using hn⟩
    · cases hw
  · rintro ⟨a, c, rfl, rfl⟩
    refine ⟨w ++ c, (mem_tails _ _).mpr ⟨a, by simp⟩, ?_⟩
    rw [if_pos (by simp), take_left]

lemma ngramWord_congr (h : lower a = lower b) : ngramWord a = ngramWord b := by
  have hfold : ∀ s : Bytes, ngramWord s =
      (lower s).foldl (fun (word : UInt32) b => (word <<< 8) ||| b.toUInt32) 0 := by
    intro s
    rw [ngramWord, lower, foldl_map]
  rw [hfold, hfold, h]

/-- **A window of a literal run is a window of every URL the pattern matches.** -/
theorem exists_window_of_ngramKey
    (hm : PatternMatches anchor pattern url (hostSpan url).1 (hostSpan url).2 endAnchored matchCase) (hkey : key ∈ ngramKeys pattern) :
    ∃ w ∈ windows minTokenLen url, ngramWord w = key.1 := by
  obtain ⟨run, hrun, hkey⟩ := mem_flatMap.mp hkey
  obtain ⟨w, hw, rfl⟩ := mem_map.mp hkey
  obtain ⟨a, c, hsplit, hlit⟩ := split_of_mem_splitBy hrun
  obtain ⟨a', c', rfl, hlen⟩ := (mem_windows_iff _ _ _).mp hw
  obtain ⟨start, ⟨front, hurl, -⟩, r, hcons, -⟩ := hm
  have hpattern : pattern = (a ++ a') ++ w ++ (c' ++ c) := by
    rw [hsplit]
    simp
  have hliteral : ∀ b ∈ w, b ≠ ch '*' ∧ b ≠ ch '^' := by
    intro b hb
    have := hlit b (by simp [hb])
    simpa using this
  rw [hpattern] at hcons
  obtain ⟨y, x, v, hy, hlow, -, -⟩ := consumes_split hliteral hcons
  refine ⟨x, (mem_windows_iff _ _ _).mpr ⟨front ++ y, v, ?_, ?_⟩, ngramWord_congr hlow⟩
  · rw [hurl, hy]
    simp
  · rw [← length_lower x, hlow, length_lower, hlen]

end Reach

end FastAdHunter.Rules.Url
