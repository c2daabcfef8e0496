import Mathlib.Data.List.Rotate
import Mathlib.Data.List.Perm.Basic
import Mathlib.Data.List.TakeWhile
import Mathlib.Tactic

/-!
# Open addressing with linear probing

A table is a list of entries in which one value, `empty`, marks a free slot.
A search starts at the home slot of its key and walks to the right, wrapping
at the end, until it meets a free slot. Entries are never removed.

`probeLoop` is that walk, with the work done at each occupied slot left as a
parameter. `chain` is the sequence of entries the walk visits.
-/

namespace FastAdHunter.Lib.Probing

open List

universe u v

/-- The slot to the right, wrapping at the end of the table. -/
def nextSlot (cap slot : Nat) : Nat :=
  if slot + 1 = cap then 0 else slot + 1

section Loop

variable {σ : Type u} {ρ : Type v} (empty : Nat)

/-- Walk from `slot` to the first free slot. `visit` runs at every occupied
slot; an `error` leaves the walk at once. The result is `none` when the fuel
runs out or the slot is outside the table. -/
def probeLoop (t : List Nat) (visit : σ → Nat → Except ρ σ) :
    Nat → Nat → σ → Option (Except ρ (σ × Nat))
  | 0, _, _ => none
  | fuel + 1, slot, st =>
    match t[slot]? with
    | none => none
    | some e =>
      if e = empty then some (.ok (st, slot))
      else
        match visit st e with
        | .error r => some (.error r)
        | .ok st' => probeLoop t visit fuel (nextSlot t.length slot) st'

/-- The entries a walk from `start` passes before the first free slot. -/
def chain (t : List Nat) (start : Nat) : List Nat :=
  (t.rotate start).takeWhile (· != empty)

/-- Place `v` at the first free slot of the walk from `start`. -/
def place (t : List Nat) (start v : Nat) : Option (List Nat) :=
  match probeLoop (σ := Unit) (ρ := Empty) empty t (fun _ _ => .ok ()) t.length start () with
  | some (.ok (_, slot)) => some (t.set slot v)
  | _ => none

/-- Attach the slot where a completed walk ended. -/
def endingAt (slot : Nat) : Except ρ σ → Except ρ (σ × Nat)
  | .error r => .error r
  | .ok st => .ok (st, slot)

end Loop

lemma rotate_eq_cons {t : List Nat} (hs : s < t.length) :
    t.rotate s = t[s] :: (t.drop (s + 1) ++ t.take s) := by
  rw [rotate_eq_drop_append_take (Nat.le_of_lt hs)]
  rw [drop_eq_getElem_cons hs]
  rfl

lemma rotate_nextSlot {t : List Nat} (hs : s < t.length) :
    t.rotate (nextSlot t.length s) = (t.drop (s + 1) ++ t.take s) ++ [t[s]] := by
  unfold nextSlot
  split
  · next h =>
    have hd : t.drop (s + 1) = [] := by simp [h]
    rw [rotate_zero, hd, nil_append]
    rw [take_append_getElem hs, h, take_length]
  · next h =>
    rw [rotate_eq_drop_append_take (by omega)]
    simp

lemma nextSlot_lt (hs : s < cap) : nextSlot cap s < cap := by
  unfold nextSlot
  split <;> omega

lemma nextSlot_add_mod (cap s n : Nat) : (nextSlot cap s + n) % cap = (s + (n + 1)) % cap := by
  unfold nextSlot
  split
  · next h =>
    have : s + (n + 1) = n + cap := by omega
    rw [this, Nat.add_mod_right, Nat.zero_add]
  · next h =>
    congr 1
    omega

section Walk

variable {σ : Type u} {ρ : Type v} {empty : Nat}

lemma takeWhile_append_of_mem {l r : List Nat} (h : empty ∈ l) :
    (l ++ r).takeWhile (· != empty) = l.takeWhile (· != empty) := by
  induction l with
  | nil =>
    simp at h
  | cons a l ih =>
    by_cases ha : a = empty
    · subst ha
      simp
    · have hl : empty ∈ l := by
        rcases mem_cons.mp h with h | h
        · exact absurd h.symm ha
        · exact h
      simp [ha, ih hl]

/-- A walk with enough fuel to reach a free slot is the fold over its chain. -/
lemma probeLoop_eq_of_mem_take (t : List Nat) (visit : σ → Nat → Except ρ σ) :
    ∀ (fuel s : Nat) (st : σ),
      s < t.length →
      empty ∈ (t.rotate s).take fuel →
      probeLoop empty t visit fuel s st =
        some (endingAt ((s + (chain empty t s).length) % t.length)
          ((chain empty t s).foldlM visit st))
  | 0, s, st, _, h => by simp at h
  | fuel + 1, s, st, hs, h => by
      have hrot := rotate_eq_cons hs
      have hget : t[s]? = some t[s] := getElem?_eq_getElem hs
      by_cases he : t[s] = empty
      · have hc : chain empty t s = [] := by
          unfold chain
          rw [hrot]
          simp [he]
        rw [hc]
        simp only [probeLoop, hget, he, if_true, foldlM_nil,
          length_nil, Nat.add_zero, Nat.mod_eq_of_lt hs]
        rfl
      · have hmem : empty ∈ (t.drop (s + 1) ++ t.take s).take fuel := by
          rw [hrot, take_succ_cons, mem_cons] at h
          rcases h with h | h
          · exact absurd h.symm he
          · exact h
        have hmem' : empty ∈ t.drop (s + 1) ++ t.take s :=
          mem_of_mem_take hmem
        have hnext : empty ∈ (t.rotate (nextSlot t.length s)).take fuel := by
          rw [rotate_nextSlot hs, take_append]
          exact mem_append_left _ hmem
        have hchain : chain empty t s =
            t[s] :: chain empty t (nextSlot t.length s) := by
          unfold chain
          rw [rotate_nextSlot hs, takeWhile_append_of_mem hmem', hrot]
          simp [he]
        have ih := fun st' => probeLoop_eq_of_mem_take t visit fuel
          (nextSlot t.length s) st' (nextSlot_lt hs) hnext
        rw [hchain, foldlM_cons, length_cons,
          ← nextSlot_add_mod]
        simp only [probeLoop, hget, he]
        cases hv : visit st t[s] with
        | error r => rfl
        | ok st' => exact ih st'

lemma probeLoop_eq_foldlM_chain (visit : σ → Nat → Except ρ σ) (st : σ)
    (hs : s < t.length) (hfree : empty ∈ t) :
    probeLoop empty t visit t.length s st =
      some (endingAt ((s + (chain empty t s).length) % t.length)
        ((chain empty t s).foldlM visit st)) := by
  apply probeLoop_eq_of_mem_take t visit t.length s st hs
  rw [take_of_length_le (by simp)]
  simpa using hfree

end Walk

section Place

variable {empty : Nat}

lemma foldlM_unit_ok (l : List Nat) :
    l.foldlM (fun (_ : Unit) (_ : Nat) => (.ok () : Except Empty Unit)) () = .ok () := by
  induction l with
  | nil => rfl
  | cons a l ih => exact ih

lemma place_eq (v : Nat) (hs : s < t.length) (hfree : empty ∈ t) :
    place empty t s v = some (t.set ((s + (chain empty t s).length) % t.length) v) := by
  unfold place
  rw [probeLoop_eq_foldlM_chain _ _ hs hfree, foldlM_unit_ok]
  rfl

/-- Setting one slot of a table sets one slot of each of its rotations. -/
lemma rotate_set {t : List Nat} (s : Nat) (v : Nat) (hi : i < t.length) :
    (t.set ((s + i) % t.length) v).rotate s = (t.rotate s).set i v := by
  apply ext_getElem
  · simp
  · intro n h₁ h₂
    have hn : n < t.length := by simpa using h₁
    simp only [getElem_rotate, getElem_set, length_set]
    have hiff : (s + i) % t.length = (n + s) % t.length ↔ i = n := by
      constructor
      · intro h
        have h' : i % t.length = n % t.length := by
          have : (s + i) % t.length = (s + n) % t.length := by
            rw [h, Nat.add_comm]
          exact Nat.ModEq.add_left_cancel' s this
        rwa [Nat.mod_eq_of_lt hi, Nat.mod_eq_of_lt hn] at h'
      · rintro rfl
        rw [Nat.add_comm]
    simp only [hiff]

variable {l : List Nat}

lemma takeWhile_set_of_length (hv : v ≠ empty)
    (hlen : (l.takeWhile (· != empty)).length < l.length) :
    (l.set (l.takeWhile (· != empty)).length v).takeWhile (· != empty) = l.takeWhile (· != empty) ++
        v :: (l.drop ((l.takeWhile (· != empty)).length + 1)).takeWhile (· != empty) := by
  induction l with
    simp at hlen
  | cons a l ih =>
    by_cases ha : a = empty
    · subst ha
      simp [hv]
    · have hlen' : (l.takeWhile (· != empty)).length < l.length := by
        simpa [ha] using hlen
      simp [ha, ih hlen']

lemma takeWhile_set_of_gt (hmem : empty ∈ l) (hj : (l.takeWhile (· != empty)).length < j) :
    (l.set j v).takeWhile (· != empty) = l.takeWhile (· != empty) := by
  induction l generalizing j with
  | nil =>
    simp at hmem
  | cons a l ih =>
    cases j with
      simp at hj
    | succ j =>
      by_cases ha : a = empty
      · subst ha
        simp
      · have hl : empty ∈ l := by
          rcases mem_cons.mp hmem with h | h
          · exact absurd h.symm ha
          · exact h
        have hj' : (l.takeWhile (· != empty)).length < j := by
          simpa [ha] using hj
        simp [ha, ih hl hj']

lemma length_takeWhile_lt (hmem : empty ∈ l) : (l.takeWhile (· != empty)).length < l.length := by
  induction l with
  | nil =>
    simp at hmem
  | cons a l ih =>
    by_cases ha : a = empty
    · subst ha
      simp
    · have hl : empty ∈ l := by
        rcases mem_cons.mp hmem with h | h
        · exact absurd h.symm ha
        · exact h
      simpa [ha] using ih hl

lemma getElem_length_takeWhile (hlen : (l.takeWhile (· != empty)).length < l.length) :
    l[(l.takeWhile (· != empty)).length] = empty := by
  induction l with
    simp at hlen
  | cons a l ih =>
    by_cases ha : a = empty
    · subst ha
      simp
    · have hlen' : (l.takeWhile (· != empty)).length < l.length := by
        simpa [ha] using hlen
      simpa [ha] using ih hlen'

lemma le_of_getElem_eq_empty (hj : j < l.length) (he : l[j] = empty) :
    (l.takeWhile (· != empty)).length ≤ j := by
  induction l generalizing j with
    simp at hj
  | cons a l ih =>
    by_cases ha : a = empty
    · subst ha
      simp
    · cases j with
      | zero =>
        exact absurd (by simpa using he) ha
      | succ j =>
        have := ih (j := j) (by simpa using hj) (by simpa using he)
        simpa [ha] using this

end Place

section Chain

variable {empty : Nat}

lemma chain_sublist (t : List Nat) (s : Nat) :
    (chain empty t s).Sublist ((t.rotate s).filter (· != empty)) := by
  have hself : (chain empty t s).filter (· != empty) = chain empty t s := by
    rw [filter_eq_self]
    intro a ha
    exact mem_takeWhile_imp (p := (· != empty)) ha
  rw [← hself]
  exact (takeWhile_sublist _).filter _

lemma mem_of_mem_chain (h : v ∈ chain empty t s) :
    v ∈ t ∧ v ≠ empty := by
  have := (chain_sublist t s).subset h
  simpa [mem_filter] using this

lemma chain_nodup (hperm : (t.filter (· != empty)).Perm vs)
    (hnodup : vs.Nodup) (s : Nat) : (chain empty t s).Nodup := by
  have hp := ((rotate_perm t s).filter (· != empty)).trans hperm
  exact (chain_sublist t s).nodup (hp.nodup_iff.mpr hnodup)

lemma eq_singleton_of_nodup (hnd : l.Nodup) (hmem : v ∈ l) (hall : ∀ w ∈ l, w = v) : l = [v] := by
  have hrep := eq_replicate_of_mem hall
  have hlen : l.length ≤ 1 := by
    rw [hrep] at hnd
    exact nodup_replicate.mp hnd
  have hpos := length_pos_of_mem hmem
  rw [hrep, show l.length = 1 by omega]
  rfl

end Chain

section Invariant

variable {empty : Nat}

/-- The table holds exactly the entries `vs`, placed in this order: every free
slot is `empty`, no entry occurs twice, and along the chain of a slot the
entries at home there appear in the order they were placed. -/
structure Holds (empty : Nat) (home : Nat → Nat) (t vs : List Nat) : Prop where
  perm : (t.filter (· != empty)).Perm vs
  nodup : vs.Nodup
  order : ∀ s, s < t.length →
    (chain empty t s).filter (fun v => home v == s) =
      vs.filter (fun v => home v == s)

lemma holds_replicate (empty : Nat) (home : Nat → Nat) (cap : Nat) :
    Holds empty home (List.replicate cap empty) [] := by
  refine ⟨by simp, nodup_nil, ?_⟩
  intro s _
  have : chain empty (List.replicate cap empty) s = [] := by
    unfold chain
    cases cap with
    | zero => rfl
    | succ n => simp
  simp [this]

variable {home : Nat → Nat} {t vs : List Nat}

lemma Holds.mem_iff (h : Holds empty home t vs) (v : Nat) : v ∈ vs ↔ v ∈ t ∧ v ≠ empty := by
  rw [← h.perm.mem_iff, mem_filter]
  simp

lemma Holds.empty_mem (h : Holds empty home t vs) (hlt : vs.length < t.length) : empty ∈ t := by
  by_contra hne
  have hall : t.filter (· != empty) = t := by
    rw [filter_eq_self]
    intro a ha
    have : a ≠ empty := fun e => hne (e ▸ ha)
    simpa using this
  have := h.perm.length_eq
  rw [hall] at this
  omega

lemma Holds.mem_chain_iff (h : Holds empty home t vs) (hs : s < t.length)
    (hv : home v = s) : v ∈ chain empty t s ↔ v ∈ vs := by
  have := h.order s hs
  have hmem : v ∈ (chain empty t s).filter (fun v => home v == s) ↔
      v ∈ vs.filter (fun v => home v == s) := by rw [this]
  simpa [mem_filter, hv] using hmem

/-- The chain of any slot after a free slot is filled starts with the old one. -/
lemma chain_set (hs : s < t.length) (hk : k < t.length) (hek : t[k] = empty)
    (hv : v ≠ empty) : ∃ tail, chain empty (t.set k v) s = chain empty t s ++ tail := by
  obtain ⟨i, hi, rfl⟩ : ∃ i, i < t.length ∧ (s + i) % t.length = k := by
    refine ⟨(k + (t.length - s)) % t.length, Nat.mod_lt _ (by omega), ?_⟩
    have : s + (k + (t.length - s)) = k + t.length := by omega
    rw [Nat.add_mod_mod, this, Nat.add_mod_right, Nat.mod_eq_of_lt hk]
  unfold chain
  rw [rotate_set s v hi]
  have hlen : i < (t.rotate s).length := by simpa using hi
  have hget : (t.rotate s)[i] = empty := by
    simpa [Nat.add_comm] using hek
  have hle := le_of_getElem_eq_empty hlen hget
  rcases Nat.lt_or_ge ((t.rotate s).takeWhile (· != empty)).length i with h | h
  · refine ⟨[], ?_⟩
    rw [takeWhile_set_of_gt (mem_of_getElem hget) h, append_nil]
  · obtain rfl : i = ((t.rotate s).takeWhile (· != empty)).length := by omega
    exact ⟨_, takeWhile_set_of_length hv hlen⟩

lemma occupied_set_perm (hk : k < t.length) (hek : t[k] = empty)
    (hv : v ≠ empty) : ((t.set k v).filter (· != empty)).Perm (t.filter (· != empty) ++ [v]) := by
  induction t generalizing k with
    simp at hk
  | cons a t ih =>
    cases k with
    | zero =>
      have ha : a = empty := by simpa using hek
      subst ha
      simpa [hv] using (perm_append_singleton v
        (t.filter (· != a))).symm
    | succ k =>
      have := ih (k := k) (by simpa using hk) (by simpa using hek)
      by_cases ha : a = empty
      · subst ha
        simpa using this
      · simpa [ha] using this

lemma Holds.set (h : Holds empty home t vs) (hk : k < t.length) (hek : t[k] = empty)
    (hfresh : v ∉ vs) (hv : v ≠ empty) (hreach : v ∈ chain empty (t.set k v) (home v)) :
    Holds empty home (t.set k v) (vs ++ [v]) := by
  have hperm : ((t.set k v).filter (· != empty)).Perm (vs ++ [v]) :=
    (occupied_set_perm hk hek hv).trans (h.perm.append_right [v])
  have hnodup : (vs ++ [v]).Nodup := by
    rw [nodup_append_comm]
    simpa using ⟨hfresh, h.nodup⟩
  refine ⟨hperm, hnodup, ?_⟩
  intro s hs
  rw [length_set] at hs
  obtain ⟨tail, htail⟩ := chain_set hs hk hek hv
  have hchain : (chain empty t s ++ tail).Nodup :=
    htail ▸ chain_nodup hperm hnodup s
  -- Every old entry at home in `s` already lies on the old chain, and no entry
  -- lies on the new chain twice, so the tail adds at most `v`.
  have hold : ∀ w ∈ tail, home w = s → w = v := by
    intro w hw hws
    have hmem : w ∈ chain empty (t.set k v) s :=
      htail ▸ mem_append_right _ hw
    have hin : w ∈ vs ++ [v] := by
      rw [← hperm.mem_iff, mem_filter]
      simpa using mem_of_mem_chain hmem
    rcases mem_append.mp hin with hin | hin
    · have hw' := (h.mem_chain_iff hs hws).mpr hin
      exact absurd rfl ((nodup_append.mp hchain).2.2 w hw' w hw)
    · exact mem_singleton.mp hin
  rw [htail, filter_append, h.order s hs, filter_append]
  by_cases hvs : home v = s
  · have hvtail : v ∈ tail := by
      rw [hvs, htail] at hreach
      rcases mem_append.mp hreach with hmem | hmem
      · exact absurd ((h.mem_chain_iff hs hvs).mp hmem) hfresh
      · exact hmem
    have hone : tail.filter (fun w => home w == s) = [v] := by
      have hnd : (tail.filter (fun w => home w == s)).Nodup :=
        (nodup_append.mp hchain).2.1.filter _
      have hall : ∀ w ∈ tail.filter (fun w => home w == s), w = v := by
        intro w hw
        rw [mem_filter] at hw
        exact hold w hw.1 (by simpa using hw.2)
      have hmem : v ∈ tail.filter (fun w => home w == s) := by
        simp [hvtail, hvs]
      exact eq_singleton_of_nodup hnd hmem hall
    simpa [hvs] using hone
  · have hnone : tail.filter (fun w => home w == s) = [] := by
      rw [filter_eq_nil_iff]
      intro w hw hws
      have hws' : home w = s := by simpa using hws
      exact hvs (hold w hw hws' ▸ hws')
    simp [hnone, hvs]

/-- **Placing a fresh entry keeps the invariant.** -/
theorem Holds.place (h : Holds empty home t vs) {v : Nat} (hhome : home v < t.length)
    (hroom : vs.length < t.length) (hfresh : v ∉ vs) (hv : v ≠ empty) :
    ∃ t', place empty t (home v) v = some t' ∧ t'.length = t.length ∧
      Holds empty home t' (vs ++ [v]) := by
  have hfree := h.empty_mem hroom
  have hmem : empty ∈ t.rotate (home v) := by simpa using hfree
  have hlen := length_takeWhile_lt hmem
  have hget := getElem_length_takeWhile hlen
  refine ⟨_, place_eq v hhome hfree, by simp, ?_⟩
  apply h.set (Nat.mod_lt _ (by omega)) _ hfresh hv
  · unfold chain
    rw [rotate_set (home v) v (by simpa using hlen),
      takeWhile_set_of_length hv hlen]
    simp
  · rw [getElem_rotate] at hget
    simpa [chain, Nat.add_comm] using hget

end Invariant

section Fill

variable {empty : Nat} {home home' : Nat → Nat} {t vs : List Nat}

/-- Only the home slots of the entries matter. -/
lemma Holds.congr (h : Holds empty home t vs) (heq : ∀ v ∈ vs, home v = home' v) :
    Holds empty home' t vs := by
  refine ⟨h.perm, h.nodup, ?_⟩
  intro s hs
  have hchain : (chain empty t s).filter (fun v => home v == s) =
      (chain empty t s).filter (fun v => home' v == s) := by
    apply filter_congr
    intro v hv
    rw [heq v ((h.mem_iff v).mpr (mem_of_mem_chain hv))]
  have hvs : vs.filter (fun v => home v == s) =
      vs.filter (fun v => home' v == s) := by
    apply filter_congr
    intro v hv
    rw [heq v hv]
  rw [← hchain, ← hvs]
  exact h.order s hs

/-- **Filling a table.** Placing items one by one, each at the home slot of its
entry, leaves a table that holds their entries in this order. -/
theorem Holds.placeAll (start value : ι → Nat) :
    ∀ (xs : List ι) {t vs : List Nat},
      Holds empty home t vs →
      (∀ x ∈ xs, home (value x) = start x ∧ start x < t.length ∧
        value x ≠ empty) →
      (vs ++ xs.map value).Nodup →
      vs.length + xs.length ≤ t.length →
      ∃ t', xs.foldlM (fun t x => Probing.place empty t (start x) (value x)) t = some t' ∧
        t'.length = t.length ∧
        Holds empty home t' (vs ++ xs.map value)
  | [], t, vs, h, _, _, _ => ⟨t, rfl, rfl, by simpa using h⟩
  | x :: xs, t, vs, h, hxs, hnodup, hlen => by
      obtain ⟨hhome, hstart, hne⟩ := hxs x mem_cons_self
      have hfresh : value x ∉ vs := by
        intro hmem
        have := (nodup_append.mp hnodup).2.2 _ hmem (value x) (by simp)
        exact this rfl
      obtain ⟨t₁, hplace, hlen₁, h₁⟩ := h.place (v := value x)
        (by rw [hhome]; exact hstart) (by simp at hlen; omega) hfresh hne
      have hnodup₁ : ((vs ++ [value x]) ++ xs.map value).Nodup := by
        simpa using hnodup
      obtain ⟨t', hfold, hlen', h'⟩ := Holds.placeAll start value xs h₁
        (fun y hy => by
          rw [hlen₁]
          exact hxs y (mem_cons_of_mem x hy))
        hnodup₁ (by simp at hlen ⊢; omega)
      refine ⟨t', ?_, hlen'.trans hlen₁, by simpa using h'⟩
      rw [foldlM_cons, ← hhome, hplace]
      exact hfold

end Fill

section Search

variable {σ : Type u} {ρ : Type v} {empty : Nat}
variable {home : Nat → Nat} {t vs : List Nat}

/-- Entries at which the work does nothing can be dropped from a fold. -/
lemma foldlM_filter_of_skip {visit : σ → Nat → Except ρ σ} :
    ∀ (l : List Nat) (st : σ),
      (∀ v ∈ l, p v = false → ∀ st, visit st v = .ok st) →
      (l.filter p).foldlM visit st = l.foldlM visit st
  | [], _, _ => rfl
  | a :: l, st, hskip => by
      have ih := fun st => foldlM_filter_of_skip l st
        (fun v hv => hskip v (mem_cons_of_mem a hv))
      cases hp : p a with
      | true =>
        rw [filter_cons_of_pos hp, foldlM_cons, foldlM_cons]
        cases visit st a with
        | error r => rfl
        | ok st' => exact ih st'
      | false =>
        rw [filter_cons_of_neg (by simp [hp]), foldlM_cons,
          hskip a mem_cons_self hp st]
        exact ih st

/-- **A walk that ignores foreign entries is the fold over all entries, in the
order they were placed.** -/
theorem Holds.probeLoop_eq (h : Holds empty home t vs) {s : Nat} (hs : s < t.length)
    (hroom : vs.length < t.length) (visit : σ → Nat → Except ρ σ) (st : σ)
    (hskip : ∀ v ∈ t, v ≠ empty → home v ≠ s → ∀ st, visit st v = .ok st) :
    probeLoop empty t visit t.length s st =
      some (endingAt ((s + (chain empty t s).length) % t.length) (vs.foldlM visit st)) := by
  rw [probeLoop_eq_foldlM_chain visit st hs (h.empty_mem hroom)]
  rw [← foldlM_filter_of_skip (p := fun v => home v == s) (chain empty t s),
    h.order s hs, foldlM_filter_of_skip]
  · intro v hv hne
    have hv' := (h.mem_iff v).mp hv
    exact hskip v hv'.1 hv'.2 (by simpa using hne)
  · intro v hv hne
    have hv' := mem_of_mem_chain hv
    exact hskip v hv'.1 hv'.2 (by simpa using hne)

/-- Work that stops at the first entry with a property. -/
lemma foldlM_stop_eq (p : Nat → Bool) (l : List Nat) :
    l.foldlM (fun (_ : Unit) v => if p v then .error v else .ok ()) () =
      (match l.find? p with
        | some v => .error v
        | none => .ok () : Except Nat Unit) := by
  induction l with
  | nil => rfl
  | cons a l ih =>
    rw [foldlM_cons]
    by_cases ha : p a = true
    · simp only [ha, find?_cons_of_pos]
      rfl
    · rw [find?_cons_of_neg ha, ← ih]
      simp only [ha]
      rfl

lemma foldlM_scan_eq {visit : Option Nat → Nat → Except Nat (Option Nat)}
    (l : List Nat) (stop keep : Nat → Bool) (hvisit : ∀ v ∈ l, ∀ st, visit st v =
      if stop v then .error v else .ok (if keep v then st.or (some v) else st)) :
    ∀ st : Option Nat, l.foldlM visit st =
      match l.find? stop with
      | some v => .error v
      | none => .ok (st.or (l.find? keep)) := by
  induction l with
  | nil =>
    intro st
    simp
    rfl
  | cons a l ih =>
    intro st
    rw [foldlM_cons, hvisit a mem_cons_self]
    by_cases hstop : stop a = true
    · rw [if_pos hstop, find?_cons_of_pos hstop]
      rfl
    · rw [if_neg hstop, find?_cons_of_neg hstop]
      refine (ih (fun v hv => hvisit v (mem_cons_of_mem a hv)) _).trans ?_
      by_cases hkeep : keep a = true
      · rw [if_pos hkeep, find?_cons_of_pos hkeep]
        cases st <;> rfl
      · rw [if_neg hkeep, find?_cons_of_neg hkeep]

end Search

end FastAdHunter.Lib.Probing
