import FastAdHunter.Lib.Segments

/-!
# Lines and white space of UTF-8 text

What a reader of lines sees of a text are its lines, trimmed, without the blank
ones. White space at the ends of a text, the carriage return before a line feed
and a last line feed are not among it. Read backwards, white space is found only
where characters are whole, so the texts here are sequences of UTF-8 characters.
-/

namespace FastAdHunter.Lib

open List

/-- A byte that continues a character. -/
def isContinuation (b : UInt8) : Bool :=
  0x80 ≤ b && b < 0xC0

def isUtf8Char : Bytes → Bool
  | [b] => b < 0x80
  | [b, c] => (0xC2 ≤ b && b < 0xE0) && isContinuation c
  | [b, c, d] => (0xE0 ≤ b && b < 0xF0) && isContinuation c && isContinuation d
  | [b, c, d, e] => (0xF0 ≤ b && b < 0xF5) && isContinuation c && isContinuation d &&
      isContinuation e
  | _ => false

/-- A text is a sequence of whole characters. -/
inductive IsUtf8 : Bytes → Prop
  | nil : IsUtf8 []
  | append {c s : Bytes} : isUtf8Char c = true → IsUtf8 s → IsUtf8 (c ++ s)

/-- Behind the first byte of a character come continuations only. -/
lemma isContinuation_of_isUtf8Char
    (h : isUtf8Char (a :: u ++ b :: v) = true) : isContinuation b = true := by
  match u, v with
  | [], [] => simp_all [isUtf8Char]
  | [], [_] => simp_all [isUtf8Char]
  | [], [_, _] => simp_all [isUtf8Char]
  | [_], [] => simp_all [isUtf8Char]
  | [_], [_] => simp_all [isUtf8Char]
  | [_, _], [] => simp_all [isUtf8Char]
  | _ :: _ :: _ :: _, _ => simp [isUtf8Char] at h

lemma isUtf8Char_ne_nil (h : isUtf8Char c = true) : c ≠ [] := by
  rintro rfl
  cases h

/-- The first byte of a character is no continuation. -/
lemma not_isContinuation_head (h : isUtf8Char (b :: u) = true) :
    isContinuation b = false := by
  have hlead : ∀ b : UInt8, (b < 0x80 ∨ 0xC2 ≤ b) → isContinuation b = false := by decide +kernel
  refine hlead b ?_
  match u with
  | [] => exact .inl (by simpa [isUtf8Char] using h)
  | [_] =>
    simp only [isUtf8Char, Bool.and_eq_true, decide_eq_true_eq] at h
    exact .inr h.1.1
  | [_, _] =>
    simp only [isUtf8Char, Bool.and_eq_true, decide_eq_true_eq] at h
    exact .inr (UInt8.le_trans (show (0xC2 : UInt8) ≤ 0xE0 by decide) h.1.1.1)
  | [_, _, _] =>
    simp only [isUtf8Char, Bool.and_eq_true, decide_eq_true_eq] at h
    exact .inr (UInt8.le_trans (show (0xC2 : UInt8) ≤ 0xF0 by decide) h.1.1.1.1)

/-- How many bytes follow the first of a character. -/
def followers (b : UInt8) : Nat :=
  if b < 0x80 then 0 else if b < 0xE0 then 1 else if b < 0xF0 then 2 else 3

lemma length_of_isUtf8Char (h : isUtf8Char (b :: u) = true) : u.length = followers b := by
  have hranges : ∀ b : UInt8, (b < 0x80 → followers b = 0) ∧
      ((0xC2 ≤ b && b < 0xE0) = true → followers b = 1) ∧
      ((0xE0 ≤ b && b < 0xF0) = true → followers b = 2) ∧
      ((0xF0 ≤ b && b < 0xF5) = true → followers b = 3) := by decide +kernel
  obtain ⟨hone, htwo, hthree, hfour⟩ := hranges b
  match u with
  | [] => exact (hone (by simpa [isUtf8Char] using h)).symm
  | [_] => exact (htwo (Bool.and_eq_true_iff.mp h).1).symm
  | [_, _] => exact (hthree (Bool.and_eq_true_iff.mp (Bool.and_eq_true_iff.mp h).1).1).symm
  | [_, _, _] =>
    simp only [isUtf8Char, Bool.and_eq_true] at h
    exact (hfour (by simpa using h.1.1.1)).symm
  | _ :: _ :: _ :: _ :: _ => simp [isUtf8Char] at h

/-- No character is the beginning of another. -/
lemma eq_nil_of_isUtf8Char_append (hc : isUtf8Char c = true)
    (h : isUtf8Char (c ++ x) = true) : x = [] := by
  cases c with
  | nil => cases hc
  | cons b u =>
    have hlength := (length_of_isUtf8Char h).trans (length_of_isUtf8Char hc).symm
    rw [append_eq, length_append] at hlength
    exact length_eq_zero_iff.mp (by omega)

/-- A text may be cut in front of a byte that continues nothing. -/
lemma IsUtf8.cut (h : IsUtf8 s) (hs : s = u ++ b :: v)
    (hb : isContinuation b = false) : IsUtf8 u ∧ IsUtf8 (b :: v) := by
  induction h generalizing u with
  | nil => simp at hs
  | @append c s hc hrest ih =>
    rcases append_eq_append_iff.mp hs with ⟨x, rfl, hx⟩ | ⟨x, rfl, hx⟩
    · obtain ⟨hu, hv⟩ := ih hx
      exact ⟨.append hc hu, hv⟩
    · cases x with
      | nil =>
        rw [append_nil] at hc
        obtain ⟨-, hv⟩ := ih (u := []) (by simpa using hx.symm)
        refine ⟨?_, hv⟩
        rw [← append_nil u]
        exact .append hc .nil
      | cons d x =>
        obtain ⟨rfl, hv⟩ := List.cons.inj hx
        cases u with
        | nil =>
          refine ⟨.nil, ?_⟩
          rw [hv]
          exact .append hc hrest
        | cons a u =>
          rw [isContinuation_of_isUtf8Char hc] at hb
          cases hb

/-- What follows a whole character is a text. -/
lemma IsUtf8.of_append (hc : isUtf8Char c = true) (h : IsUtf8 (c ++ s)) :
    IsUtf8 s := by
  generalize hs : c ++ s = t at h
  cases h with
  | nil => exact absurd (append_eq_nil_iff.mp hs).1 (isUtf8Char_ne_nil hc)
  | @append d r hd hr =>
    rcases append_eq_append_iff.mp hs with ⟨x, rfl, hx⟩ | ⟨x, rfl, hx⟩
    · rw [eq_nil_of_isUtf8Char_append hc hd, nil_append] at hx
      rwa [hx]
    · rw [eq_nil_of_isUtf8Char_append hd hc, nil_append] at hx
      rwa [← hx]

/-- The white-space characters. -/
def spaces : List Bytes :=
  [[9], [10], [11], [12], [13], [32], [0xC2, 0x85], [0xC2, 0xA0], [0xE1, 0x9A, 0x80],
    [0xE2, 0x80, 0x80], [0xE2, 0x80, 0x81], [0xE2, 0x80, 0x82], [0xE2, 0x80, 0x83],
    [0xE2, 0x80, 0x84], [0xE2, 0x80, 0x85], [0xE2, 0x80, 0x86], [0xE2, 0x80, 0x87],
    [0xE2, 0x80, 0x88], [0xE2, 0x80, 0x89], [0xE2, 0x80, 0x8A], [0xE2, 0x80, 0xA8],
    [0xE2, 0x80, 0xA9], [0xE2, 0x80, 0xAF], [0xE2, 0x81, 0x9F], [0xE3, 0x80, 0x80]]

lemma isUtf8Char_of_mem_spaces : ∀ w ∈ spaces, isUtf8Char w = true := by
  decide +kernel

lemma ascii_mem_spaces : ∀ b : UInt8, ((9 ≤ b && b ≤ 13) || b == 32) = true → [b] ∈ spaces := by
  decide +kernel

lemma nextLine_mem_spaces :
    ∀ b : UInt8, (b == 0x85 || b == 0xA0) = true → [0xC2, b] ∈ spaces := by
  decide +kernel

lemma general_mem_spaces : ∀ b : UInt8,
    ((0x80 ≤ b && b ≤ 0x8A) || b == 0xA8 || b == 0xA9 || b == 0xAF) = true →
      [0xE2, 0x80, b] ∈ spaces := by
  decide +kernel

/-- What is recognised at the head of a text is a white-space character. -/
lemma take_mem_spaces (h : whitespaceWidth s = n + 1) :
    s.take (n + 1) ∈ spaces := by
  unfold whitespaceWidth at h
  split at h
  · split at h
    next hb =>
      cases h
      exact nextLine_mem_spaces _ hb
    · cases h
  · cases h
    exact show [0xE1, 0x9A, 0x80] ∈ spaces by decide
  · split at h
    next hb =>
      cases h
      exact general_mem_spaces _ hb
    · cases h
  · cases h
    exact show [0xE2, 0x81, 0x9F] ∈ spaces by decide
  · cases h
    exact show [0xE3, 0x80, 0x80] ∈ spaces by decide
  · split at h
    next hb =>
      cases h
      exact ascii_mem_spaces _ hb
    · cases h
  · cases h

lemma take_reverse_mem_spaces (h : whitespaceWidthRev s = n + 1) :
    (s.take (n + 1)).reverse ∈ spaces := by
  unfold whitespaceWidthRev at h
  split at h
  · cases h
    exact show [0xE1, 0x9A, 0x80] ∈ spaces by decide
  · cases h
    exact show [0xE3, 0x80, 0x80] ∈ spaces by decide
  · cases h
    exact show [0xE2, 0x81, 0x9F] ∈ spaces by decide
  · split at h
    next hb =>
      cases h
      exact general_mem_spaces _ hb
    · cases h
  · split at h
    next hb =>
      cases h
      exact nextLine_mem_spaces _ hb
    · cases h
  · split at h
    next hb =>
      cases h
      exact ascii_mem_spaces _ hb
    · cases h
  · cases h

/-- Every white-space character is recognised at the head of a text. -/
lemma whitespaceWidth_append (hw : w ∈ spaces) (s : Bytes) :
    whitespaceWidth (w ++ s) = w.length := by
  simp only [spaces, mem_cons, not_mem_nil, or_false] at hw
  rcases hw with rfl | rfl | rfl | rfl | rfl | rfl | rfl | rfl | rfl | rfl | rfl | rfl | rfl |
    rfl | rfl | rfl | rfl | rfl | rfl | rfl | rfl | rfl | rfl | rfl | rfl <;> rfl

section Trim

variable {w s : Bytes}

/-- A text that is not empty begins with a character. -/
lemma IsUtf8.head (h : IsUtf8 s) (hs : s ≠ []) : ∃ c t, s = c ++ t ∧ isUtf8Char c = true := by
  cases h with
  | nil => exact absurd rfl hs
  | append hc _ => exact ⟨_, _, rfl, hc⟩

/-- A text does not end within a character of two bytes. -/
lemma IsUtf8.reverse_ne_latin (hs : IsUtf8 s) (rest : Bytes) : s.reverse ≠ 0xC2 :: rest := by
  intro h
  have hsplit : s = rest.reverse ++ 0xC2 :: [] := by
    rw [← reverse_reverse s, h, reverse_cons]
  obtain ⟨c, t, heq, hc⟩ := (hs.cut hsplit (by decide)).2.head (by simp)
  cases c with
  | nil => cases hc
  | cons b c =>
    obtain ⟨rfl, hnil⟩ := List.cons.inj heq
    obtain ⟨rfl, -⟩ := append_eq_nil_iff.mp hnil.symm
    cases hc

/-- Nor within one of the three bytes of general punctuation. -/
lemma IsUtf8.reverse_ne_general (hs : IsUtf8 s) (rest : Bytes) :
    s.reverse ≠ 0x80 :: 0xE2 :: rest := by
  intro h
  have hsplit : s = rest.reverse ++ 0xE2 :: [0x80] := by
    rw [← reverse_reverse s, h, reverse_cons, reverse_cons, append_assoc]
    rfl
  obtain ⟨c, t, heq, hc⟩ := (hs.cut hsplit (by decide)).2.head (by simp)
  match c with
  | [b, d] =>
    obtain ⟨rfl, hrest⟩ := List.cons.inj heq
    cases hc

/-- A white-space character behind a text is found from behind. -/
lemma whitespaceWidthRev_append (hw : w ∈ spaces) (hs : IsUtf8 s) :
    whitespaceWidthRev (w.reverse ++ s.reverse) = w.length := by
  have hlatin := hs.reverse_ne_latin
  have hgeneral := hs.reverse_ne_general
  -- one byte of white space is read as such, since no character is open before it
  have hascii : ∀ b : UInt8, b < 0x80 → ((9 ≤ b && b ≤ 13) || b == 32) = true →
      whitespaceWidthRev (b :: s.reverse) = 1 := by
    intro b hb hspace
    unfold whitespaceWidthRev
    split
    next heq => exact absurd (List.cons.inj heq).1 (by rintro rfl; exact absurd hb (by decide))
    next heq => exact absurd (List.cons.inj heq).1 (by rintro rfl; exact absurd hb (by decide))
    next heq => exact absurd (List.cons.inj heq).1 (by rintro rfl; exact absurd hb (by decide))
    next heq => exact absurd (List.cons.inj heq).2 (hgeneral _)
    next heq => exact absurd (List.cons.inj heq).2 (hlatin _)
    next heq =>
      obtain ⟨rfl, -⟩ := List.cons.inj heq
      rw [if_pos hspace]
    next heq => cases heq
  simp only [spaces, mem_cons, not_mem_nil, or_false] at hw
  rcases hw with rfl | rfl | rfl | rfl | rfl | rfl | rfl | rfl | rfl | rfl | rfl | rfl | rfl |
    rfl | rfl | rfl | rfl | rfl | rfl | rfl | rfl | rfl | rfl | rfl | rfl
  all_goals first | rfl | exact hascii _ (by decide) (by decide)

lemma trimWith_nil (width : Bytes → Nat) (fuel : Nat) : trimWith width fuel [] = [] := by
  induction fuel with
  | zero => rfl
  | succ fuel ih =>
    rw [trimWith]
    split
    · rfl
    · rw [drop_nil, ih]

variable {width : Bytes → Nat}

/-- The fuel of a trim does not matter once it covers the text. -/
lemma trimWith_fuel (h : s.length ≤ fuel)
    (h' : s.length ≤ fuel') : trimWith width fuel s = trimWith width fuel' s := by
  induction fuel generalizing s fuel' with
  | zero =>
    have hnil : s = [] := length_eq_zero_iff.mp (Nat.le_zero.mp h)
    rw [hnil, trimWith_nil, trimWith_nil]
  | succ fuel ih =>
    cases fuel' with
    | zero =>
      have hnil : s = [] := length_eq_zero_iff.mp (Nat.le_zero.mp h')
      rw [hnil, trimWith_nil, trimWith_nil]
    | succ fuel' =>
      rw [trimWith, trimWith]
      split
      · rfl
      · refine ih ?_ ?_
        all_goals
          rw [length_drop]
          omega

lemma length_pos_of_mem_spaces (hw : w ∈ spaces) : 0 < w.length :=
  length_pos_iff.mpr (isUtf8Char_ne_nil (isUtf8Char_of_mem_spaces w hw))

/-- A trim passes over a white-space character. -/
lemma trimWith_append (hu : 0 < u.length) (hwidth : width (u ++ s) = u.length) :
    trimWith width (u ++ s).length (u ++ s) = trimWith width s.length s := by
  obtain ⟨n, hn⟩ : ∃ n, u.length = n + 1 := Nat.exists_eq_succ_of_ne_zero hu.ne'
  have hlength : (u ++ s).length = s.length + n + 1 := by
    rw [length_append]
    omega
  rw [hlength, trimWith, hwidth, hn]
  dsimp only
  rw [← hn, drop_left]
  exact trimWith_fuel (by omega) le_rfl

lemma trimStart_append (hw : w ∈ spaces) (s : Bytes) : trimStart (w ++ s) = trimStart s :=
  trimWith_append (length_pos_of_mem_spaces hw) (whitespaceWidth_append hw s)

lemma trimEnd_append (hw : w ∈ spaces) (hs : IsUtf8 s) : trimEnd (s ++ w) = trimEnd s := by
  have hwidth : whitespaceWidthRev (w.reverse ++ s.reverse) = w.reverse.length := by
    rw [whitespaceWidthRev_append hw hs, length_reverse]
  have hstep := trimWith_append (by simpa using length_pos_of_mem_spaces hw) hwidth
  have hlength : (s ++ w).length = (w.reverse ++ s.reverse).length := by
    rw [← reverse_append, length_reverse]
  rw [trimEnd, trimEnd, hlength, reverse_append, hstep, length_reverse]

/-- In front of what is left, a trim passed over white space only. -/
lemma exists_trimStart (s : Bytes) : ∃ ws : List Bytes, (∀ w ∈ ws, w ∈ spaces) ∧
    s = ws.flatten ++ trimStart s ∧ whitespaceWidth (trimStart s) = 0 := by
  induction hn : s.length using Nat.strong_induction_on generalizing s with
  | _ n ih =>
    cases hwidth : whitespaceWidth s with
    | zero =>
      have hself : trimStart s = s := by
        rw [trimStart]
        cases s.length with
        | zero => rfl
        | succ n => rw [trimWith, hwidth]
      exact ⟨[], by simp, by rw [hself]; rfl, by rw [hself, hwidth]⟩
    | succ k =>
      have hspace := take_mem_spaces hwidth
      have hpos := length_pos_of_mem_spaces hspace
      have hlt : (s.drop (k + 1)).length < n := by
        rw [length_take] at hpos
        rw [length_drop]
        omega
      obtain ⟨ws, hws, heq, hzero⟩ := ih _ hlt (s.drop (k + 1)) rfl
      have hstep : trimStart s = trimStart (s.drop (k + 1)) := by
        have := trimStart_append hspace (s.drop (k + 1))
        rwa [take_append_drop] at this
      refine ⟨s.take (k + 1) :: ws, forall_mem_cons.mpr ⟨hspace, hws⟩, ?_, by rwa [hstep]⟩
      rw [flatten_cons, append_assoc, hstep, ← heq, take_append_drop]

/-- Behind what is left, too. -/
lemma exists_trimEnd (s : Bytes) : ∃ ws : List Bytes, (∀ w ∈ ws, w ∈ spaces) ∧
    s = trimEnd s ++ ws.flatten := by
  have hrun : ∀ fuel (r : Bytes), ∃ ws : List Bytes, (∀ w ∈ ws, w ∈ spaces) ∧
      r.reverse = (trimWith whitespaceWidthRev fuel r).reverse ++ ws.flatten := by
    intro fuel
    induction fuel with
    | zero => exact fun r => ⟨[], by simp, by simp [trimWith]⟩
    | succ fuel ih =>
      intro r
      rw [trimWith]
      split
      · exact ⟨[], by simp, by simp⟩
      next n hn =>
        obtain ⟨ws, hws, heq⟩ := ih (r.drop (n + 1))
        refine ⟨ws ++ [(r.take (n + 1)).reverse], ?_, ?_⟩
        · rw [forall_mem_append]
          exact ⟨hws, by simpa using take_reverse_mem_spaces hn⟩
        · have hsplit : r.reverse = (r.drop (n + 1)).reverse ++ (r.take (n + 1)).reverse := by
            rw [← reverse_append, take_append_drop]
          rw [hsplit, heq]
          simp
  obtain ⟨ws, hws, heq⟩ := hrun s.length s.reverse
  rw [reverse_reverse] at heq
  exact ⟨ws, hws, heq⟩

/-- Nothing is left to trim where a trim ended. -/
lemma width_trimWith (hnil : width [] = 0)
    (h : s.length ≤ fuel) : width (trimWith width fuel s) = 0 := by
  induction fuel generalizing s with
  | zero =>
    have hs : s = [] := length_eq_zero_iff.mp (Nat.le_zero.mp h)
    rw [hs, trimWith, hnil]
  | succ fuel ih =>
    rw [trimWith]
    split
    next hzero => exact hzero
    · refine ih ?_
      rw [length_drop]
      omega

lemma trimWith_of_zero (h : width s = 0) (fuel : Nat) : trimWith width fuel s = s := by
  cases fuel with
  | zero => rfl
  | succ fuel => rw [trimWith, h]

lemma trim_trim (s : Bytes) : trim (trim s) = trim s := by
  have hstart : whitespaceWidth (trimStart s) = 0 := width_trimWith rfl le_rfl
  have hend : ∀ q, trimEnd (trimEnd q) = trimEnd q := by
    intro q
    have hzero : whitespaceWidthRev (trimEnd q).reverse = 0 := by
      rw [trimEnd, reverse_reverse]
      exact width_trimWith rfl (by rw [length_reverse])
    rw [trimEnd, trimWith_of_zero hzero, reverse_reverse]
  obtain ⟨ws, -, hq⟩ := exists_trimEnd (trimStart s)
  have hhead : whitespaceWidth (trim s) = 0 := by
    cases hwidth : whitespaceWidth (trim s) with
    | zero => rfl
    | succ n =>
      -- white space at its head would be at the head of what `trimStart` left
      have hspace := take_mem_spaces hwidth
      have hwhole := whitespaceWidth_append hspace ((trim s).drop (n + 1) ++ ws.flatten)
      rw [← append_assoc, take_append_drop, trim, ← hq, hstart] at hwhole
      have hpos := length_pos_of_mem_spaces hspace
      rw [trim] at hpos
      omega
  have hself : trimStart (trim s) = trim s := trimWith_of_zero hhead _
  conv_lhs => rw [trim, hself]
  rw [trim, hend]

lemma trimStart_flatten {ws : List Bytes} (hws : ∀ w ∈ ws, w ∈ spaces) (s : Bytes) :
    trimStart (ws.flatten ++ s) = trimStart s := by
  induction ws with
  | nil => rfl
  | cons w ws ih =>
    obtain ⟨hw, hws⟩ := forall_mem_cons.mp hws
    rw [flatten_cons, append_assoc, trimStart_append hw, ih hws]

/-- White space behind a text does not make its first character white space. -/
lemma whitespaceWidth_append_of_zero (hq : q ≠ []) (hzero : whitespaceWidth q = 0)
    (hw : w ∈ spaces) : whitespaceWidth (q ++ w) = 0 := by
  cases hwidth : whitespaceWidth (q ++ w) with
  | zero => rfl
  | succ n =>
    have hspace := take_mem_spaces hwidth
    by_cases hle : n + 1 ≤ q.length
    · -- it is all in `q`
      rw [take_append_of_le_length hle] at hspace
      have := whitespaceWidth_append hspace (q.drop (n + 1))
      rw [take_append_drop, hzero] at this
      have hpos := length_pos_of_mem_spaces hspace
      omega
    · -- else the first byte of `w` would continue a character
      have hchar := isUtf8Char_of_mem_spaces _ hspace
      have hcharw := isUtf8Char_of_mem_spaces w hw
      cases w with
      | nil => cases hcharw
      | cons b w =>
        cases q with
        | nil => exact absurd rfl hq
        | cons a q =>
          obtain ⟨m, hm⟩ : ∃ m, n + 1 = (a :: q).length + (m + 1) :=
            ⟨n - (a :: q).length, by omega⟩
          rw [hm, take_length_add_append, take_succ_cons] at hchar
          have hcont := isContinuation_of_isUtf8Char hchar
          rw [not_isContinuation_head hcharw] at hcont
          cases hcont

lemma trim_space_append (hw : w ∈ spaces) (s : Bytes) : trim (w ++ s) = trim s := by
  rw [trim, trimStart_append hw, trim]

lemma IsUtf8.of_flatten {ws : List Bytes} (hws : ∀ w ∈ ws, w ∈ spaces)
    (h : IsUtf8 (ws.flatten ++ s)) : IsUtf8 s := by
  induction ws with
  | nil => exact h
  | cons w ws ih =>
    obtain ⟨hw, hws⟩ := forall_mem_cons.mp hws
    rw [flatten_cons, append_assoc] at h
    exact ih hws (h.of_append (isUtf8Char_of_mem_spaces w hw))

lemma trim_append_space (hw : w ∈ spaces) (hs : IsUtf8 s) : trim (s ++ w) = trim s := by
  obtain ⟨ws, hws, heq, hzero⟩ := exists_trimStart s
  have hrest : IsUtf8 (trimStart s) := IsUtf8.of_flatten hws (heq ▸ hs)
  have hstart : trimStart (s ++ w) = trimStart (trimStart s ++ w) := by
    conv_lhs => rw [heq, append_assoc]
    exact trimStart_flatten hws _
  rw [trim, hstart, trim]
  generalize hq : trimStart s = q at hzero hrest ⊢
  cases q with
  | nil =>
    have := trimStart_append hw []
    rw [append_nil] at this
    rw [nil_append, this]
    rfl
  | cons a q =>
    have hstop : trimStart (a :: q ++ w) = a :: q ++ w := by
      rw [trimStart, cons_append, length_cons, trimWith, ← cons_append,
        whitespaceWidth_append_of_zero (by simp) hzero hw]
    rw [hstop, trimEnd_append hw hrest]

end Trim

section Contents

variable {w s : Bytes}

/-- The lines of a text as a reader of lines sees them: trimmed, and without the
blank ones. -/
def contents (s : Bytes) : List Bytes :=
  ((splitBy (· == 10) s).map trim).filter fun line => !line.isEmpty

lemma contents_nil : contents [] = [] := rfl

lemma contents_append (u v : Bytes) : contents (u ++ 10 :: v) = contents u ++ contents v := by
  rw [contents, splitBy_append u v (by rfl), map_append, filter_append]
  rfl

lemma contents_joinBy (parts : List Bytes) :
    contents (joinBy 10 parts) = parts.flatMap contents := by
  induction parts with
  | nil => rfl
  | cons part parts ih =>
    cases parts with
    | nil => simp [joinBy]
    | cons next parts => rw [joinBy, contents_append, ih, ← flatMap_cons]

/-- A text of one line. -/
lemma contents_of_not_mem (h : 10 ∉ s) :
    contents s = [trim s].filter fun line => !line.isEmpty := by
  have hone : splitBy (· == 10) s = [s] := splitBy_eq_singleton fun b hb => by
    rw [beq_eq_false_iff_ne]
    rintro rfl
    exact h hb
  rw [contents, hone]
  rfl

/-- Texts line by line. -/
lemma IsUtf8.line_induction {P : Bytes → Prop} (hlast : ∀ s, IsUtf8 s → 10 ∉ s → P s)
    (hline : ∀ u v, IsUtf8 u → 10 ∉ u → P v → P (u ++ 10 :: v)) (h : IsUtf8 s) : P s := by
  induction hn : s.length using Nat.strong_induction_on generalizing s with
  | _ n ih =>
    by_cases hmem : 10 ∈ s
    · obtain ⟨u, v, rfl, hu⟩ := eq_append_cons_of_mem hmem
      obtain ⟨hfirst, hrest⟩ := h.cut rfl (by decide)
      have hrest : IsUtf8 v := hrest.of_append (c := [10]) (by decide)
      refine hline u v hfirst hu (ih v.length ?_ hrest rfl)
      rw [← hn, length_append, length_cons]
      omega
    · exact hlast s h hmem

lemma mem_spaces_cases : ∀ w ∈ spaces, w = [10] ∨ 10 ∉ w := by
  decide +kernel

lemma contents_space_append (hw : w ∈ spaces) (s : Bytes) : contents (w ++ s) = contents s := by
  rcases mem_spaces_cases w hw with rfl | hno
  · exact contents_append [] s
  · by_cases hmem : 10 ∈ s
    · obtain ⟨u, v, rfl, hu⟩ := eq_append_cons_of_mem hmem
      have hwu : 10 ∉ w ++ u := by simp [hno, hu]
      rw [← append_assoc, contents_append, contents_append, contents_of_not_mem hwu,
        contents_of_not_mem hu, trim_space_append hw]
    · have hws : 10 ∉ w ++ s := by simp [hno, hmem]
      rw [contents_of_not_mem hws, contents_of_not_mem hmem, trim_space_append hw]

lemma contents_append_space (hw : w ∈ spaces) (hs : IsUtf8 s) :
    contents (s ++ w) = contents s := by
  rcases mem_spaces_cases w hw with rfl | hno
  · rw [contents_append, contents_nil, append_nil]
  · refine IsUtf8.line_induction (P := fun s => contents (s ++ w) = contents s) ?_ ?_ hs
    · intro s hs hlast
      have hsw : 10 ∉ s ++ w := by simp [hno, hlast]
      rw [contents_of_not_mem hsw, contents_of_not_mem hlast, trim_append_space hw hs]
    · intro u v _ _ ih
      rw [append_assoc, cons_append, contents_append, contents_append, ih]

/-- In front of white space a text is whole. -/
lemma IsUtf8.of_append_flatten {ws : List Bytes} (hws : ∀ w ∈ ws, w ∈ spaces)
    (h : IsUtf8 (s ++ ws.flatten)) : IsUtf8 s := by
  cases ws with
  | nil => simpa using h
  | cons w ws =>
    have hchar := isUtf8Char_of_mem_spaces w (hws w mem_cons_self)
    cases w with
    | nil => cases hchar
    | cons b w => exact (h.cut rfl (not_isContinuation_head hchar)).1

lemma contents_flatten_append {ws : List Bytes} (hws : ∀ w ∈ ws, w ∈ spaces) (s : Bytes) :
    contents (ws.flatten ++ s) = contents s := by
  induction ws with
  | nil => rfl
  | cons w ws ih =>
    obtain ⟨hw, hws⟩ := forall_mem_cons.mp hws
    rw [flatten_cons, append_assoc, contents_space_append hw, ih hws]

lemma contents_append_flatten {ws : List Bytes} (hws : ∀ w ∈ ws, w ∈ spaces)
    (h : IsUtf8 (s ++ ws.flatten)) : contents (s ++ ws.flatten) = contents s := by
  induction ws generalizing s with
  | nil => simp
  | cons w ws ih =>
    have hs := h.of_append_flatten hws
    obtain ⟨hw, hws⟩ := forall_mem_cons.mp hws
    rw [flatten_cons, ← append_assoc] at h ⊢
    rw [ih hws h, contents_append_space hw hs]

/-- White space at the ends of a text is not among its contents. -/
lemma contents_trim (h : IsUtf8 s) : contents (trim s) = contents s := by
  obtain ⟨ws, hws, hstart, -⟩ := exists_trimStart s
  obtain ⟨vs, hvs, hend⟩ := exists_trimEnd (trimStart s)
  have hrest : IsUtf8 (trimStart s) := IsUtf8.of_flatten hws (hstart ▸ h)
  calc contents (trim s)
      = contents (trimEnd (trimStart s) ++ vs.flatten) :=
        (contents_append_flatten hvs (hend ▸ hrest)).symm
    _ = contents (trimStart s) := by rw [← hend]
    _ = contents (ws.flatten ++ trimStart s) := (contents_flatten_append hws _).symm
    _ = contents s := by rw [← hstart]

/-- A carriage return before a line feed is trimmed with the line. -/
lemma trim_stripSuffix (h : IsUtf8 s) : trim ((stripSuffix [13] s).getD s) = trim s := by
  cases hstrip : stripSuffix [13] s with
  | none => rfl
  | some u =>
    have hs : s = u ++ [13] := (stripSuffix_eq_some_iff [13] s u).mp hstrip
    subst hs
    exact (trim_append_space (by decide) (h.cut rfl (by decide)).1).symm

lemma lines_append (u v : Bytes) (hu : 10 ∉ u) :
    lines (u ++ 10 :: v) = (stripSuffix [13] u).getD u :: lines v := by
  have hone : splitBy (· == 10) u = [u] := splitBy_eq_singleton fun b hb => by
    rw [beq_eq_false_iff_ne]
    rintro rfl
    exact hu hb
  have hne := splitBy_ne_nil (· == 10) v
  have hpieces : splitBy (· == 10) (u ++ 10 :: v) = u :: splitBy (· == 10) v := by
    rw [splitBy_append u v (by rfl), hone]
    rfl
  rw [lines, lines, hpieces, dropLast_cons_of_ne_nil hne, map_cons]
  cases hlast : (splitBy (· == 10) v).getLast? with
  | none => exact absurd (getLast?_eq_none_iff.mp hlast) hne
  | some last =>
    rw [getLast?_cons, hlast]
    cases last with
    | nil => rfl
    | cons b last => rfl

/-- The lines of a text, trimmed, are its contents. -/
lemma contents_lines (h : IsUtf8 s) :
    ((lines s).map trim).filter (fun line => !line.isEmpty) = contents s := by
  refine IsUtf8.line_induction (P := fun s =>
    ((lines s).map trim).filter (fun line => !line.isEmpty) = contents s) ?_ ?_ h
  · intro s hs hlast
    have hone : splitBy (· == 10) s = [s] := splitBy_eq_singleton fun b hb => by
      rw [beq_eq_false_iff_ne]
      rintro rfl
      exact hlast hb
    rw [contents_of_not_mem hlast, lines, hone]
    cases s with
    | nil => rfl
    | cons b s => rfl
  · intro u v hu hno ih
    rw [lines_append u v hno, contents_append, contents_of_not_mem hno, map_cons,
      trim_stripSuffix hu, filter_cons, ih, filter_cons]
    split
    · rfl
    · rfl

lemma IsUtf8.append_text (hu : IsUtf8 u) (hv : IsUtf8 v) : IsUtf8 (u ++ v) := by
  induction hu with
  | nil => exact hv
  | append hc _ ih =>
    rw [append_assoc]
    exact .append hc ih

lemma IsUtf8.joinBy_lines (h : ∀ part ∈ parts, IsUtf8 part) :
    IsUtf8 (joinBy 10 parts) := by
  induction parts with
  | nil => exact .nil
  | cons part parts ih =>
    obtain ⟨hpart, hparts⟩ := forall_mem_cons.mp h
    cases parts with
    | nil => exact hpart
    | cons next parts =>
      have hfeed : isUtf8Char [10] = true := by decide
      exact hpart.append_text (.append hfeed (ih hparts))

end Contents

end FastAdHunter.Lib
