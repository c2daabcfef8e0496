import Mathlib.Data.List.GetD
import Mathlib.Tactic

/-!
# Packed runs

Items that share a key, laid out one after another in one array, with the key
and the start of each run beside it. Items arrive in the order of their keys;
an item whose key is the last key extends the last run, any other item starts a
new one.

`Packs` relates the three arrays to the list of runs they stand for.
-/

namespace FastAdHunter.Lib

open List

universe u v

/-- The keys, the start of each run, and all items. -/
structure Runs (κ : Type u) (ρ : Type v) where
  keys : List κ
  starts : List Nat
  items : List ρ
  deriving DecidableEq

namespace Runs

section Layout

variable {κ : Type u} {ρ : Type v} [DecidableEq κ]

def empty : Runs κ ρ := ⟨[], [], []⟩

/-- Lay out one more item. -/
def push (l : Runs κ ρ) (x : κ × ρ) : Runs κ ρ :=
  if l.keys.getLast? = some x.1 then { l with items := l.items ++ [x.2] }
  else ⟨l.keys ++ [x.1], l.starts ++ [l.items.length], l.items ++ [x.2]⟩

def slice (starts : List Nat) (items : List ρ) (i : Nat) : List ρ :=
  let start := starts.getD i 0
  (items.drop start).take (starts.getD (i + 1) 0 - start)

/-- The runs after one more item. -/
def pushRun : List (κ × List ρ) → κ × ρ → List (κ × List ρ)
  | [], x => [(x.1, [x.2])]
  | [g], x => if g.1 = x.1 then [(g.1, g.2 ++ [x.2])] else [g, (x.1, [x.2])]
  | g :: g' :: gs, x => g :: pushRun (g' :: gs) x

/-- The arrays stand for these runs. -/
structure Packs (l : Runs κ ρ) (gs : List (κ × List ρ)) : Prop where
  keys : l.keys = gs.map Prod.fst
  starts : l.starts = (List.range gs.length).map fun i => ((gs.take i).flatMap Prod.snd).length
  items : l.items = gs.flatMap Prod.snd

omit [DecidableEq κ] in
lemma packs_empty : Packs (empty : Runs κ ρ) [] :=
  ⟨rfl, rfl, rfl⟩

lemma pushRun_eq (gs : List (κ × List ρ)) (x : κ × ρ) :
    (gs = [] ∧ pushRun gs x = [(x.1, [x.2])]) ∨ ∃ front g, gs = front ++ [g] ∧
        pushRun gs x = front ++ if g.1 = x.1 then [(g.1, g.2 ++ [x.2])] else [g, (x.1, [x.2])] := by
  induction gs with
  | nil => exact .inl ⟨rfl, rfl⟩
  | cons g gs ih =>
    right
    cases gs with
    | nil => exact ⟨[], g, rfl, rfl⟩
    | cons g' gs =>
      rcases ih with ⟨h, -⟩ | ⟨front, last, heq, hpush⟩
      · cases h
      · exact ⟨g :: front, last, by rw [heq]; rfl, by rw [pushRun, hpush]; rfl⟩

variable {l : Runs κ ρ} {gs : List (κ × List ρ)}

lemma Packs.push (h : Packs l gs) (x : κ × ρ) : Packs (l.push x) (pushRun gs x) := by
  rcases pushRun_eq gs x with ⟨rfl, hpush⟩ | ⟨front, g, rfl, hpush⟩
  · have hkeys : l.keys = [] := h.keys
    have hstarts : l.starts = [] := h.starts
    have hitems : l.items = [] := h.items
    rw [hpush, Runs.push, hkeys, if_neg (by simp), hstarts, hitems]
    exact ⟨rfl, rfl, rfl⟩
  · have hlast : l.keys.getLast? = some g.1 := by simp [h.keys]
    rw [hpush, Runs.push, hlast]
    by_cases hkey : g.1 = x.1
    · rw [if_pos (congrArg some hkey), if_pos hkey]
      refine ⟨by simp [h.keys], ?_, by simp [h.items]⟩
      rw [h.starts]
      simp only [length_append, length_singleton]
      apply map_congr_left
      intro i hi
      rw [mem_range] at hi
      rw [take_append_of_le_length (by omega), take_append_of_le_length (by omega)]
    · rw [if_neg fun heq => hkey (Option.some.inj heq), if_neg hkey]
      refine ⟨by simp [h.keys], ?_, by simp [h.items]⟩
      change l.starts ++ [l.items.length] = _
      have hsplit : front ++ [g, (x.1, [x.2])] = (front ++ [g]) ++ [(x.1, [x.2])] := by simp
      rw [h.starts, h.items, hsplit]
      generalize front ++ [g] = gs
      rw [length_append, length_singleton, range_succ, map_append,
        map_singleton, take_left]
      congr 1
      apply map_congr_left
      intro i hi
      rw [take_append_of_le_length (mem_range.mp hi).le]

omit [DecidableEq κ] in
/-- The bound of run `i` in the start array that the total length closes. -/
lemma Packs.start_eq (h : Packs l gs) (hi : i ≤ gs.length) :
    (l.starts ++ [l.items.length]).getD i 0 = ((gs.take i).flatMap Prod.snd).length := by
  have hlen : l.starts.length = gs.length := by simp [h.starts]
  rcases Nat.lt_or_ge i gs.length with hlt | hge
  · rw [getD_append _ _ _ _ (by omega), h.starts]
    simp [hlt]
  · have heq : i = gs.length := by omega
    rw [getD_append_right _ _ _ _ (by omega), h.items, heq, hlen]
    simp

omit [DecidableEq κ] in
/-- **The slice between two starts is the run.** -/
theorem Packs.slice_eq (h : Packs l gs) (hg : gs[i]? = some g) :
    slice (l.starts ++ [l.items.length]) l.items i = g.2 := by
  obtain ⟨hi, hget⟩ := List.getElem?_eq_some_iff.mp hg
  have hsplit : gs = gs.take i ++ g :: gs.drop (i + 1) := by
    rw [← hget, getElem_cons_drop, take_append_drop]
  have hnext : (gs.take (i + 1)).flatMap Prod.snd = (gs.take i).flatMap Prod.snd ++ g.2 := by
    rw [take_succ_eq_append_getElem hi, flatMap_append, hget, flatMap_singleton]
  have hitems : l.items = (gs.take i).flatMap Prod.snd ++
      (g.2 ++ (gs.drop (i + 1)).flatMap Prod.snd) := by
    rw [h.items]
    conv_lhs => rw [hsplit]
    rw [flatMap_append, flatMap_cons]
  simp only [slice]
  rw [h.start_eq hi.le, h.start_eq hi, hnext, hitems, drop_left, length_append,
    Nat.add_sub_cancel_left, take_left]

def runsOf (xs : List (κ × ρ)) : List (κ × List ρ) :=
  xs.foldl pushRun []

lemma runsOf_snoc (xs : List (κ × ρ)) (x : κ × ρ) :
    runsOf (xs ++ [x]) = pushRun (runsOf xs) x := by
  simp [runsOf]

/-- One more item keeps every item in a run of its key. -/
lemma mem_pushRun (gs : List (κ × List ρ)) (x : κ × ρ)
    (h : (k, r) = x ∨ ∃ g ∈ gs, g.1 = k ∧ r ∈ g.2) : ∃ g ∈ pushRun gs x, g.1 = k ∧ r ∈ g.2 := by
  rcases pushRun_eq gs x with ⟨rfl, hpush⟩ | ⟨front, last, rfl, hpush⟩ <;> rw [hpush]
  · rcases h with rfl | ⟨g, hg, -⟩
    · simp
    · cases hg
  · by_cases hkey : last.1 = x.1
    · rw [if_pos hkey]
      rcases h with rfl | ⟨g, hg, hk, hr⟩
      · exact ⟨(last.1, last.2 ++ [r]), by simp, hkey, by simp⟩
      · rcases mem_append.mp hg with hg | hg
        · exact ⟨g, by simp [hg], hk, hr⟩
        · rw [mem_singleton.mp hg] at hk hr
          exact ⟨(last.1, last.2 ++ [x.2]), by simp, hk, by simp [hr]⟩
    · rw [if_neg hkey]
      rcases h with rfl | ⟨g, hg, hk, hr⟩
      · exact ⟨(k, [r]), by simp, rfl, by simp⟩
      · refine ⟨g, ?_, hk, hr⟩
        rcases mem_append.mp hg with hg | hg
        · simp [hg]
        · simp [mem_singleton.mp hg]

/-- **Every item lies in a run of its key.** -/
theorem exists_run_of_mem {xs : List (κ × ρ)} {k : κ} {r : ρ} (h : (k, r) ∈ xs) :
    ∃ g ∈ runsOf xs, g.1 = k ∧ r ∈ g.2 := by
  induction xs using List.reverseRecOn with
  | nil => cases h
  | append_singleton xs x ih =>
    rw [runsOf_snoc]
    apply mem_pushRun
    rcases mem_append.mp h with h | h
    · exact .inr (ih h)
    · exact .inl (mem_singleton.mp h)

end Layout

section Keys

variable {κ : Type u} {ρ : Type v} [DecidableEq κ]

lemma keys_pushRun (gs : List (κ × List ρ)) (x : κ × ρ) :
    (pushRun gs x).map Prod.fst = if (gs.map Prod.fst).getLast? = some x.1 then gs.map Prod.fst
      else gs.map Prod.fst ++ [x.1] := by
  rcases pushRun_eq gs x with ⟨rfl, hpush⟩ | ⟨front, last, rfl, hpush⟩
  · rw [hpush]
    rfl
  · rw [hpush]
    have hlast : ((front ++ [last]).map Prod.fst).getLast? = some last.1 := by simp
    by_cases hkey : last.1 = x.1
    · rw [if_pos hkey, hlast, if_pos (congrArg some hkey)]
      simp
    · rw [if_neg hkey, hlast, if_neg fun heq => hkey (Option.some.inj heq)]
      simp

lemma getLast?_keys_runsOf (xs : List (κ × ρ)) :
    ((runsOf xs).map Prod.fst).getLast? = (xs.map Prod.fst).getLast? := by
  induction xs using List.reverseRecOn with
  | nil => rfl
  | append_singleton xs x ih =>
    rw [runsOf_snoc, keys_pushRun]
    split <;> rename_i hlast
    · simp [hlast]
    · simp

lemma mem_keys_runsOf (xs : List (κ × ρ)) :
    k ∈ (runsOf xs).map Prod.fst → k ∈ xs.map Prod.fst := by
  induction xs using List.reverseRecOn with
  | nil => exact id
  | append_singleton xs x ih =>
    rw [runsOf_snoc, keys_pushRun, map_append, mem_append]
    split
    · exact fun h => .inl (ih h)
    · intro h
      rcases mem_append.mp h with h | h
      · exact .inl (ih h)
      · exact .inr h

/-- A key that occurs again follows itself. -/
def Clustered (ks : List κ) : Prop :=
  ∀ before k, before ++ [k] <+: ks → k ∈ before → before.getLast? = some k

omit [DecidableEq κ] in
lemma Clustered.of_prefix (h : Clustered ks) (hpre : ks' <+: ks) :
    Clustered ks' :=
  fun before k hk => h before k (hk.trans hpre)

/-- **No key has two runs.** -/
theorem nodup_keys (xs : List (κ × ρ)) (h : Clustered (xs.map Prod.fst)) :
    ((runsOf xs).map Prod.fst).Nodup := by
  induction xs using List.reverseRecOn with
  | nil => exact nodup_nil
  | append_singleton xs x ih =>
    have hpre : xs.map Prod.fst <+: (xs ++ [x]).map Prod.fst := by simp
    have hnodup := ih (h.of_prefix hpre)
    rw [runsOf_snoc, keys_pushRun, getLast?_keys_runsOf]
    split <;> rename_i hlast
    · exact hnodup
    · -- a key that starts a run has not occurred before
      have hfresh : x.1 ∉ (runsOf xs).map Prod.fst := fun hmem =>
        hlast (h _ _ (by simp) (mem_keys_runsOf xs hmem))
      rw [nodup_append]
      exact ⟨hnodup, nodup_singleton _, fun a ha b hb heq =>
        hfresh (by rw [← mem_singleton.mp hb, ← heq]; exact ha)⟩

end Keys

end Runs
end FastAdHunter.Lib
