import Mathlib

/-!
# A table with an insertion queue

A table of entries, each carrying the number of its last insertion, beside a
queue of `(key, number)` nodes in insertion order. Re-inserting a key leaves its
old node behind; a node is *live* when the table still holds the entry it was
pushed for. Eviction pops nodes until a live one comes up.
-/

namespace FastAdHunter.Lib

open List

universe u v

/-- A finite map with its entries in some order. -/
abbrev Table (K : Type u) (V : Type v) := AList (fun _ : K => V)

namespace Table

variable {K : Type u} {V : Type v} [DecidableEq K]

def size (m : Table K V) : Nat := m.entries.length

/-- The sum of a weight over the entries. -/
def weight (w : K → V → Nat) (m : Table K V) : Nat :=
  (m.entries.map fun e => w e.1 e.2).sum

/-- The entries that pass a test. -/
def retain (p : K → V → Bool) (m : Table K V) : Table K V :=
  ⟨m.entries.filter fun e => p e.1 e.2, m.nodupKeys.sublist filter_sublist⟩

/-- Change the entry of a key, if there is one. -/
def modify (k : K) (f : V → V) (m : Table K V) : Table K V :=
  match m.lookup k with
  | some v => m.insert k (f v)
  | none => m

variable (m : Table K V) (w : K → V → Nat)

lemma mem_entries_iff : ⟨k, v⟩ ∈ m.entries ↔ m.lookup k = some v :=
  AList.mem_lookup_iff.symm

lemma weight_erase (h : m.lookup k = some v) :
    weight w (m.erase k) + w k v = weight w m := by
  have hmem : k ∈ m.entries.keys := mem_keys_of_mem (m.mem_entries_iff.mpr h)
  obtain ⟨u, first, last, -, hm, herase⟩ := exists_of_kerase hmem
  have hu : m.lookup k = some u := m.mem_entries_iff.mp (by simp [hm])
  obtain rfl : u = v := Option.some.inj (hu.symm.trans h)
  rw [weight, weight, show (m.erase k).entries = first ++ last from herase, hm]
  simp only [map_append, map_cons, sum_append, sum_cons]
  omega

lemma erase_of_none (h : m.lookup k = none) : m.erase k = m :=
  AList.ext (kerase_of_notMem_keys (AList.lookup_eq_none.mp h))

lemma weight_insert (k : K) (v : V) : weight w (m.insert k v) = weight w (m.erase k) + w k v := by
  simp [weight, AList.erase]
  omega

omit [DecidableEq K] in
lemma size_eq_weight : m.size = weight (fun _ _ => 1) m := by
  simp [size, weight]

lemma size_erase (h : m.lookup k = some v) : size (m.erase k) + 1 = m.size := by
  simp only [size_eq_weight]
  exact m.weight_erase _ h

lemma exists_of_size_pos (h : 0 < m.size) : ∃ k v, m.lookup k = some v := by
  obtain ⟨e, he⟩ := exists_mem_of_length_pos h
  exact ⟨e.1, e.2, m.mem_entries_iff.mp he⟩

@[simp] lemma lookup_retain (p : K → V → Bool) (k : K) :
    (m.retain p).lookup k = (m.lookup k).filter (p k) := by
  refine Option.ext fun v => ?_
  rw [Option.filter_eq_some_iff, ← mem_entries_iff, ← mem_entries_iff]
  simp [retain]

omit [DecidableEq K] in
lemma size_retain_le (p : K → V → Bool) : (m.retain p).size ≤ m.size :=
  length_filter_le _ _

omit [DecidableEq K] in
lemma weight_retain_le (p : K → V → Bool) : weight w (m.retain p) ≤ weight w m :=
  (filter_sublist.map _).sum_le_sum (fun _ _ => Nat.zero_le _)

lemma lookup_modify (k : K) (f : V → V) (k' : K) :
    (m.modify k f).lookup k' = if k' = k then (m.lookup k).map f else m.lookup k' := by
  unfold modify
  split <;> rename_i hk <;> split <;> rename_i hkk
  · subst hkk
    simp [hk]
  · exact AList.lookup_insert_ne hkk
  · subst hkk
    simp [hk]
  · rfl

lemma weight_modify (k : K) (f : V → V) (hf : ∀ v, w k (f v) = w k v) :
    weight w (m.modify k f) = weight w m := by
  unfold modify
  split
  next v hk => rw [weight_insert, hf, weight_erase m w hk]
  next => rfl

lemma size_modify (k : K) (f : V → V) : (m.modify k f).size = m.size := by
  simp only [size_eq_weight]
  exact m.weight_modify _ k f fun _ => rfl

end Table

section Queue

variable {K : Type u} {V : Type v} [DecidableEq K] (seq : V → Nat)

/-- The table still holds the entry a node was pushed for. -/
def live (m : Table K V) (node : K × Nat) : Bool :=
  (m.lookup node.1).any fun v => seq v = node.2

lemma live_iff {m : Table K V} {node : K × Nat} :
    live seq m node = true ↔ ∃ v, m.lookup node.1 = some v ∧ seq v = node.2 := by
  simp [live, Option.any_eq_true]

def popLive (m : Table K V) : List (K × Nat) → Option (K × List (K × Nat))
  | [] => none
  | node :: rest => if live seq m node then some (node.1, rest) else popLive m rest

/-- Every entry has its node, and nodes stand in the order of their numbers,
all below the next one. -/
structure InOrder (m : Table K V) (queue : List (K × Nat)) (next : Nat) : Prop where
  increasing : queue.Pairwise fun a b => a.2 < b.2
  below : ∀ node ∈ queue, node.2 < next
  listed : ∀ k v, m.lookup k = some v → (k, seq v) ∈ queue

namespace InOrder

variable {seq} {m : Table K V} {queue : List (K × Nat)} {next : Nat}

lemma empty : InOrder seq (∅ : Table K V) [] 0 :=
  ⟨.nil, by simp, by simp⟩

lemma seq_lt (h : InOrder seq m queue next) (hk : m.lookup k = some v) :
    seq v < next :=
  h.below _ (h.listed k v hk)

/-- Numbers tell nodes apart. -/
lemma eq_of_seq (h : InOrder seq m queue next) (ha : a ∈ queue)
    (hb : b ∈ queue) (hab : a.2 = b.2) : a = b := by
  have hnodup : (queue.map (·.2)).Nodup :=
    (pairwise_map.mpr h.increasing).imp fun hlt => Nat.ne_of_lt hlt
  exact inj_on_of_nodup_map hnodup ha hb hab

/-- An entry's number stands on its own node and on no other. -/
lemma nodes_of_entry (h : InOrder seq m queue next) (hk : m.lookup k = some v) :
    (queue.filter fun node => node.2 = seq v) = [(k, seq v)] := by
  have hmem := h.listed k v hk
  have hall : ∀ node ∈ queue.filter fun node => node.2 = seq v, node = (k, seq v) := by
    intro node hnode
    rw [mem_filter, decide_eq_true_eq] at hnode
    exact h.eq_of_seq hnode.1 hmem hnode.2
  have hnodup : (queue.filter fun node => node.2 = seq v).Nodup :=
    (h.increasing.imp fun hlt heq => Nat.ne_of_lt hlt (congrArg Prod.snd heq)).filter _
  have hin : (k, seq v) ∈ queue.filter fun node => node.2 = seq v := by simp [hmem]
  refine perm_singleton.mp ((perm_ext_iff_of_nodup hnodup (by simp)).mpr fun node => ?_)
  rw [mem_singleton]
  exact ⟨hall node, fun heq => heq ▸ hin⟩

/-- An insertion takes the next number and a node at the back. -/
lemma push (h : InOrder seq m queue next) (k : K) (hv : seq v = next) :
    InOrder seq (m.insert k v) (queue ++ [(k, next)]) (next + 1) where
  increasing := by
    refine pairwise_append.mpr ⟨h.increasing, pairwise_singleton _ _, ?_⟩
    intro a ha b hb
    rw [mem_singleton.mp hb]
    exact h.below a ha
  below := by
    intro node hnode
    rcases mem_append.mp hnode with hold | hnew
    · exact Nat.lt_succ_of_lt (h.below node hold)
    · rw [mem_singleton.mp hnew]
      exact Nat.lt_succ_self next
  listed := by
    intro k' v' hk'
    by_cases hkk : k' = k
    · subst hkk
      rw [AList.lookup_insert, Option.some.injEq] at hk'
      subst hk'
      simp [hv]
    · rw [AList.lookup_insert_ne hkk] at hk'
      exact mem_append_left _ (h.listed k' v' hk')

/-- Entries may go, their nodes staying behind. -/
lemma of_entries (h : InOrder seq m queue next)
    (hsub : ∀ k v', m'.lookup k = some v' → ∃ v, m.lookup k = some v ∧ seq v' = seq v) :
    InOrder seq m' queue next where
  increasing := h.increasing
  below := h.below
  listed := by
    intro k v' hk
    obtain ⟨v, hv, hseq⟩ := hsub k v' hk
    rw [hseq]
    exact h.listed k v hv

lemma retain (h : InOrder seq m queue next) (p : K → V → Bool) :
    InOrder seq (m.retain p) queue next := by
  refine h.of_entries fun k v hk => ⟨v, ?_, rfl⟩
  rw [Table.lookup_retain, Option.filter_eq_some_iff] at hk
  exact hk.1

lemma modify (h : InOrder seq m queue next) (k : K) (f : V → V)
    (hf : ∀ v, seq (f v) = seq v) : InOrder seq (m.modify k f) queue next := by
  refine h.of_entries fun k' v' hk' => ?_
  rw [Table.lookup_modify] at hk'
  split at hk'
  next hkk =>
    obtain ⟨v, hv, rfl⟩ := Option.map_eq_some_iff.mp hk'
    exact ⟨v, hkk ▸ hv, hf v⟩
  next => exact ⟨v', hk', rfl⟩

/-- Dead nodes may go. -/
lemma sweep (h : InOrder seq m queue next) :
    InOrder seq m (queue.filter (live seq m)) next where
  increasing := h.increasing.filter _
  below := fun node hnode => h.below node (mem_of_mem_filter hnode)
  listed := by
    intro k v hk
    exact mem_filter.mpr ⟨h.listed k v hk, (live_iff seq).mpr ⟨v, hk, rfl⟩⟩

/-- A swept queue has one node for each entry. -/
lemma length_sweep (h : InOrder seq m queue next) :
    (queue.filter (live seq m)).length = m.size := by
  have hnodup : ((queue.filter (live seq m)).map (·.1)).Nodup := by
    refine (nodup_map_iff_inj_on ?_).mpr ?_
    · exact (h.increasing.imp fun hlt heq => Nat.ne_of_lt hlt (congrArg Prod.snd heq)).filter _
    · intro a ha b hb hab
      obtain ⟨va, hva, hseqa⟩ := (live_iff seq).mp (mem_filter.mp ha).2
      obtain ⟨vb, hvb, hseqb⟩ := (live_iff seq).mp (mem_filter.mp hb).2
      rw [hab, hvb, Option.some.injEq] at hva
      exact Prod.ext hab (by rw [← hseqa, ← hseqb, hva])
  have hkeys : ((queue.filter (live seq m)).map (·.1)).Perm m.keys := by
    refine (perm_ext_iff_of_nodup hnodup m.keys_nodup).mpr fun k => ?_
    rw [← AList.mem_keys, ← AList.lookup_isSome, Option.isSome_iff_exists]
    constructor
    · intro hk
      obtain ⟨node, hnode, rfl⟩ := mem_map.mp hk
      obtain ⟨v, hv, -⟩ := (live_iff seq).mp (mem_filter.mp hnode).2
      exact ⟨v, hv⟩
    · rintro ⟨v, hv⟩
      exact mem_map.mpr ⟨(k, seq v), h.sweep.listed k v hv, rfl⟩
  simpa [AList.keys, List.keys, Table.size] using hkeys.length_eq

/-- What eviction takes: the entry with the smallest number. -/
lemma popLive (h : InOrder seq m queue next) (hpop : popLive seq m queue = some (k, rest)) :
    ∃ v, m.lookup k = some v ∧ InOrder seq (m.erase k) rest next ∧
      ∀ k' v', m.lookup k' = some v' → k' ≠ k → seq v < seq v' := by
  induction queue with
  | nil => simp [Lib.popLive] at hpop
  | cons node queue ih =>
    rw [Lib.popLive] at hpop
    have htail := pairwise_cons.mp h.increasing
    split at hpop
    next hlive =>
      obtain ⟨v, hv, hseq⟩ := (live_iff seq).mp hlive
      simp only [Option.some.injEq, Prod.mk.injEq] at hpop
      obtain ⟨rfl, rfl⟩ := hpop
      -- every other entry's node is behind the popped one
      have hbehind : ∀ k' v', m.lookup k' = some v' → k' ≠ node.1 → (k', seq v') ∈ queue := by
        intro k' v' hk' hne
        rcases mem_cons.mp (h.listed k' v' hk') with heq | hmem
        · exact absurd (congrArg Prod.fst heq) hne
        · exact hmem
      refine ⟨v, hv, ⟨htail.2, fun n hn => h.below n (mem_cons_of_mem _ hn), ?_⟩, ?_⟩
      · intro k' v' hk'
        have hne : k' ≠ node.1 := by
          rintro rfl
          simp at hk'
        rw [AList.lookup_erase_ne hne] at hk'
        exact hbehind k' v' hk' hne
      · intro k' v' hk' hne
        rw [hseq]
        exact htail.1 _ (hbehind k' v' hk' hne)
    next hdead =>
      refine ih ⟨htail.2, fun n hn => h.below n (mem_cons_of_mem _ hn), ?_⟩ hpop
      intro k' v' hk'
      rcases mem_cons.mp (h.listed k' v' hk') with heq | hmem
      · refine absurd ((live_iff seq).mpr ⟨v', ?_, ?_⟩) hdead
        · rw [← heq]
          exact hk'
        · rw [← heq]
      · exact hmem

/-- There is something to evict while the table holds an entry. -/
lemma popLive_isSome (h : InOrder seq m queue next)
    (hk : m.lookup k = some v) : (Lib.popLive seq m queue).isSome := by
  have hlive : live seq m (k, seq v) = true := (live_iff seq).mpr ⟨v, hk, rfl⟩
  have hmem := h.listed k v hk
  clear h
  induction queue with
  | nil => simp at hmem
  | cons node queue ih =>
    rw [Lib.popLive]
    split
    next => rfl
    next hdead =>
      rcases mem_cons.mp hmem with heq | hmem
      · exact absurd (heq ▸ hlive) hdead
      · exact ih hmem

end InOrder

lemma popLive_length {m : Table K V} {queue : List (K × Nat)} {k : K} {rest : List (K × Nat)}
    (hpop : popLive seq m queue = some (k, rest)) : rest.length < queue.length := by
  induction queue with
  | nil => simp [popLive] at hpop
  | cons node queue ih =>
    rw [popLive] at hpop
    split at hpop
    next =>
      simp only [Option.some.injEq, Prod.mk.injEq] at hpop
      simp [← hpop.2]
    next => exact Nat.lt_succ_of_lt (ih hpop)

end Queue

end FastAdHunter.Lib
