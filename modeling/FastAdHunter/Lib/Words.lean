import FastAdHunter.Lib.Segments

/-!
# Text without white space

A text of visible ASCII characters is its own only word and its own only line,
and trimming leaves it alone.
-/

namespace FastAdHunter.Lib

open List

/-- A visible ASCII character. -/
def isGraphic (b : UInt8) : Bool :=
  33 ≤ b && b ≤ 126

section Width

variable {b : UInt8} {s : Bytes}

lemma graphic_bounds (h : isGraphic b = true) : 33 ≤ b.toNat ∧ b.toNat ≤ 126 := by
  simpa [isGraphic, UInt8.le_iff_toNat_le] using h

lemma not_space_of_graphic (h : isGraphic b = true) : ((9 ≤ b && b ≤ 13) || b == 32) = false := by
  obtain ⟨hlow, -⟩ := graphic_bounds h
  have hne : b ≠ 32 := by
    rintro rfl
    exact absurd hlow (by decide)
  have hle : ¬ b ≤ 13 := by
    rw [UInt8.le_iff_toNat_le]
    exact fun hle => absurd (hlow.trans hle) (by decide)
  simp [hne, hle]

lemma ne_of_graphic (h : isGraphic b = true) (hc : 127 ≤ c.toNat) :
    b ≠ c ∧ ¬ c ≤ b := by
  obtain ⟨-, hhigh⟩ := graphic_bounds h
  rw [UInt8.le_iff_toNat_le]
  exact ⟨by rintro rfl; omega, by omega⟩

lemma whitespaceWidth_of_graphic (h : isGraphic b = true) : whitespaceWidth (b :: s) = 0 := by
  have hne : ∀ c : UInt8, 127 ≤ c.toNat → b ≠ c := fun c hc => (ne_of_graphic h hc).1
  unfold whitespaceWidth
  split
  -- the five multi-byte forms start above ASCII
  · next heq => exact absurd (List.cons.inj heq).1 (hne _ (by decide))
  · next heq => exact absurd (List.cons.inj heq).1 (hne _ (by decide))
  · next heq => exact absurd (List.cons.inj heq).1 (hne _ (by decide))
  · next heq => exact absurd (List.cons.inj heq).1 (hne _ (by decide))
  · next heq => exact absurd (List.cons.inj heq).1 (hne _ (by decide))
  · next heq =>
    obtain ⟨rfl, -⟩ := List.cons.inj heq
    rw [not_space_of_graphic h]
    rfl
  · next heq => cases heq

lemma whitespaceWidthRev_of_graphic (h : isGraphic b = true) :
    whitespaceWidthRev (b :: s) = 0 := by
  have hne : ∀ c : UInt8, 127 ≤ c.toNat → b ≠ c := fun c hc => (ne_of_graphic h hc).1
  unfold whitespaceWidthRev
  split
  · next heq => exact absurd (List.cons.inj heq).1 (hne _ (by decide))
  · next heq => exact absurd (List.cons.inj heq).1 (hne _ (by decide))
  · next heq => exact absurd (List.cons.inj heq).1 (hne _ (by decide))
  -- the two forms that end in a range or a choice end above ASCII
  · next heq =>
    obtain ⟨rfl, -⟩ := List.cons.inj heq
    simp [(ne_of_graphic h (c := 0x80) (by decide)).2, hne 0xA8 (by decide),
      hne 0xA9 (by decide), hne 0xAF (by decide)]
  · next heq =>
    obtain ⟨rfl, -⟩ := List.cons.inj heq
    simp [hne 0x85 (by decide), hne 0xA0 (by decide)]
  · next heq =>
    obtain ⟨rfl, -⟩ := List.cons.inj heq
    rw [not_space_of_graphic h]
    rfl
  · next heq => cases heq

end Width

lemma trimWith_eq_self (h : width s = 0) (fuel : Nat) :
    trimWith width fuel s = s := by
  cases fuel with
  | zero => rfl
  | succ fuel => rw [trimWith, h]

/-- Visible characters at both ends leave nothing to trim. -/
lemma trim_eq_self (hhead : ∀ b ∈ s.head?, isGraphic b = true)
    (hlast : ∀ b ∈ s.getLast?, isGraphic b = true) : trim s = s := by
  have hstart : trimStart s = s := by
    cases s with
    | nil => rfl
    | cons b s => exact trimWith_eq_self (whitespaceWidth_of_graphic (hhead b rfl)) _
  rw [trim, hstart, trimEnd]
  have hrev : trimWith whitespaceWidthRev s.length s.reverse = s.reverse := by
    rw [← head?_reverse] at hlast
    cases hs : s.reverse with
    | nil => exact trimWith_eq_self rfl _
    | cons b t =>
      rw [hs] at hlast
      exact trimWith_eq_self (whitespaceWidthRev_of_graphic (hlast b rfl)) _
  rw [hrev, reverse_reverse]

lemma splitWhitespaceFrom_graphic (h : ∀ b ∈ s, isGraphic b = true) (hfuel : s.length ≤ fuel) :
    splitWhitespaceFrom fuel run s =
      if (run.reverse ++ s).isEmpty then [] else [run.reverse ++ s] := by
  induction s generalizing run fuel with
  | nil =>
    cases fuel <;> cases run <;> simp [splitWhitespaceFrom]
  | cons b s ih =>
    cases fuel with
    | zero => exact absurd hfuel (by simp)
    | succ fuel =>
      rw [splitWhitespaceFrom, whitespaceWidth_of_graphic (h b mem_cons_self)]
      rw [ih (fun c hc => h c (mem_cons_of_mem b hc)) (Nat.le_of_succ_le_succ hfuel),
        reverse_cons, append_assoc]
      rfl

/-- A text of visible characters is one word. -/
lemma splitWhitespace_graphic (h : ∀ b ∈ s, isGraphic b = true) (hs : s ≠ []) :
    splitWhitespace s = [s] := by
  rw [splitWhitespace, splitWhitespaceFrom_graphic h le_rfl]
  simp [hs]

/-- A text of visible characters is one line. -/
lemma lines_graphic (h : ∀ b ∈ s, isGraphic b = true) (hs : s ≠ []) :
    lines s = [s] := by
  have hpieces : splitBy (· == 10) s = [s] := by
    apply splitBy_eq_singleton
    intro b hb
    rw [beq_eq_false_iff_ne]
    rintro rfl
    exact absurd (h 10 hb) (by decide)
  rw [lines, hpieces]
  cases s with
  | nil => exact absurd rfl hs
  | cons b s => rfl

lemma findStr_eq_none (hp : c ∈ p) (hs : c ∉ s) :
    findStr p s = none := by
  cases h : findStr p s with
  | none => rfl
  | some i =>
    obtain ⟨a, t, rfl, -⟩ := findStr_eq_some h
    exact absurd (by simp [hp]) hs

end FastAdHunter.Lib
