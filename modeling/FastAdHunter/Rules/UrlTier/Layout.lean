import FastAdHunter.Rules.UrlTier.Index
import FastAdHunter.Rules.UrlTier.KeyReach

/-!
# Every URL rule can be reached

Each record of the compiled index is either scanned on every lookup, or lies in
the bucket of one of its own keys; a window key also passes the filter. The
packed buckets, the cut past the visited set's width, the filter and the table
are all covered here, so that the lookup only has to produce the right keys.
-/

namespace FastAdHunter.Rules.Url

open Lib Net Probing List

section Rarest

variable {κ : Type} (count : κ → Nat)

lemma pickRarest_cases (best : Option (Nat × Nat × κ)) (key : κ × Nat) :
    pickRarest count best key = some (count key.1, key.2, key.1) ∨
      (best.isSome ∧ pickRarest count best key = best) := by
  rcases best with - | ⟨bestCount, bestLen, bestKey⟩
  · exact .inl rfl
  · simp only [pickRarest]
    split
    · exact .inl rfl
    · exact .inr ⟨rfl, rfl⟩

lemma foldl_pickRarest (keys : List (κ × Nat)) :
    match keys.foldl (pickRarest count) none with
    | none => keys = []
    | some best => ∃ len, (best.2.2, len) ∈ keys := by
  induction keys using List.reverseRecOn with
  | nil => rfl
  | append_singleton keys key ih =>
    rw [foldl_append, foldl_cons, foldl_nil]
    rcases pickRarest_cases count (keys.foldl (pickRarest count) none) key with h | ⟨hsome, h⟩
    · rw [h]
      exact ⟨key.2, by simp⟩
    · rw [h]
      obtain ⟨best, hbest⟩ := Option.isSome_iff_exists.mp hsome
      rw [hbest] at ih ⊢
      obtain ⟨len, hmem⟩ := ih
      exact ⟨len, mem_append_left _ hmem⟩

lemma exists_mem_of_rarest {keys : List (κ × Nat)} (h : rarest count keys = some k) :
    ∃ len, (k, len) ∈ keys := by
  obtain ⟨best, hbest, rfl⟩ := Option.map_eq_some_iff.mp h
  have := foldl_pickRarest count keys
  rwa [hbest] at this

end Rarest

lemma mul_right_injective_of_inverse (hcd : c * d = 1) {x y : UInt64}
    (h : x * c = y * c) : x = y := by
  calc x = x * (c * d) := by rw [hcd, UInt64.mul_one]
    _ = y * (c * d) := by rw [← UInt64.mul_assoc, h, UInt64.mul_assoc]
    _ = y := by rw [hcd, UInt64.mul_one]

lemma xor_shift_self (x : UInt64) : (x ^^^ (x >>> 33)) ^^^ ((x ^^^ (x >>> 33)) >>> 33) = x := by
  apply UInt64.toBitVec_inj.mp
  ext i hi
  have hout : x.toBitVec.getLsbD (33 + (33 + i)) = false :=
    BitVec.getLsbD_of_ge _ _ (by omega)
  simp [hout]

/-- **Two windows never share a key.** -/
theorem ngramHash_injective {w w' : UInt32} (h : ngramHash w = ngramHash w') : w = w' := by
  have hfold := mul_right_injective_of_inverse (c := 0xc4ceb9fe1a85ec53)
    (d := 0x9cb4b2f8129337db) (by decide) h
  have hspread := congrArg (fun x : UInt64 => x ^^^ (x >>> 33)) hfold
  simp only [xor_shift_self] at hspread
  have hxor := mul_right_injective_of_inverse (c := 0xff51afd7ed558ccd)
    (d := 0x4f74430c22a54005) (by decide) hspread
  exact UInt32.toUInt64_inj.mp ((UInt64.xor_left_inj _).mp hxor)

lemma mem_filterMap_isNone (filing : List (Nat × Option κ)) :
    i ∈ filing.filterMap (fun e => if e.2.isNone then some e.1 else none) ↔ (i, none) ∈ filing := by
  simp only [mem_filterMap, Prod.exists, Option.isNone_iff_eq_none]
  constructor
  · rintro ⟨j, key, hmem, hif⟩
    split at hif
    · next hnone =>
      rw [← Option.some.inj hif, ← hnone]
      exact hmem
    · cases hif
  · intro hmem
    exact ⟨i, none, hmem, if_pos rfl⟩

namespace UrlIndexBuilder

variable (b : UrlIndexBuilder)

lemma mem_boundedFiling :
    (i, key) ∈ b.boundedFiling ↔
      ∃ r, b.records[i]? = some r ∧ rarest b.frequency (b.boundedKeys r) = key := by
  simp only [boundedFiling, mem_map, Prod.exists, mem_zipIdx_iff_getElem?,
    Prod.mk.injEq]
  constructor
  · rintro ⟨r, j, hr, rfl, hkey⟩
    exact ⟨r, hr, hkey⟩
  · rintro ⟨r, hr, hkey⟩
    exact ⟨r, i, hr, rfl, hkey⟩

lemma mem_needsNgram :
    i ∈ b.needsNgram ↔
      ∃ r, b.records[i]? = some r ∧ rarest b.frequency (b.boundedKeys r) = none := by
  rw [← b.mem_boundedFiling, needsNgram, mem_filterMap_isNone]

lemma mem_ngramFiling :
    (i, word) ∈ b.ngramFiling ↔
      ∃ r, b.records[i]? = some r ∧ rarest b.frequency (b.boundedKeys r) = none ∧
        rarest b.ngramFrequency (b.windowKeys r) = word := by
  simp only [ngramFiling, mem_map, Prod.mk.injEq, mem_needsNgram, windowKeysAt]
  constructor
  · rintro ⟨j, ⟨r, hr, hnone⟩, rfl, hword⟩
    rw [hr] at hword
    exact ⟨r, hr, hnone, hword⟩
  · rintro ⟨r, hr, hnone, hword⟩
    exact ⟨i, ⟨r, hr, hnone⟩, rfl, by rw [hr]; exact hword⟩

lemma mem_filedUnsorted :
    e ∈ b.filedUnsorted ↔ ∃ r, b.records[e.2.2]? = some r ∧
        ((e.1 = false ∧ rarest b.frequency (b.boundedKeys r) = some e.2.1) ∨
          (e.1 = true ∧ rarest b.frequency (b.boundedKeys r) = none ∧
            ∃ word, rarest b.ngramFrequency (b.windowKeys r) = some word ∧
              e.2.1 = ngramHash word)) := by
  obtain ⟨flag, hash, i⟩ := e
  simp only [filedUnsorted, mem_append, mem_filterMap, Prod.exists,
    mem_boundedFiling, mem_ngramFiling, Option.map_eq_some_iff, Prod.mk.injEq]
  constructor
  · rintro (⟨j, key, ⟨r, hr, hkey⟩, hash', rfl, rfl, rfl, rfl⟩ |
      ⟨j, key, ⟨r, hr, hnone, hword⟩, word, rfl, rfl, rfl, rfl⟩)
    · exact ⟨r, hr, .inl ⟨rfl, hkey⟩⟩
    · exact ⟨r, hr, .inr ⟨rfl, hnone, word, hword, rfl⟩⟩
  · rintro ⟨r, hr, ⟨rfl, hkey⟩ | ⟨rfl, hnone, word, hword, rfl⟩⟩
    · exact .inl ⟨i, some hash, ⟨r, hr, hkey⟩, hash, rfl, rfl, rfl, rfl⟩
    · exact .inr ⟨i, some word, ⟨r, hr, hnone, hword⟩, word, rfl, rfl, rfl, rfl⟩

lemma mem_unfiled :
    i ∈ b.unfiled ↔ ∃ r, b.records[i]? = some r ∧ rarest b.frequency (b.boundedKeys r) = none ∧
        rarest b.ngramFrequency (b.windowKeys r) = none := by
  rw [← b.mem_ngramFiling, unfiled, mem_filterMap_isNone]

/-- **Every record is filed or scanned.** -/
theorem filing_cases (hr : b.records[i]? = some r) :
    (∃ hash, rarest b.frequency (b.boundedKeys r) = some hash ∧
        (false, hash, i) ∈ b.filedUnsorted) ∨
      (∃ word, rarest b.ngramFrequency (b.windowKeys r) = some word ∧
        (true, ngramHash word, i) ∈ b.filedUnsorted) ∨ i ∈ b.unfiled := by
  cases hkey : rarest b.frequency (b.boundedKeys r) with
  | some hash =>
    exact .inl ⟨hash, rfl, b.mem_filedUnsorted.mpr ⟨r, hr, .inl ⟨rfl, hkey⟩⟩⟩
  | none =>
    cases hword : rarest b.ngramFrequency (b.windowKeys r) with
    | some word =>
      exact .inr (.inl ⟨word, rfl,
        b.mem_filedUnsorted.mpr ⟨r, hr, .inr ⟨rfl, hkey, word, hword, rfl⟩⟩⟩)
    | none => exact .inr (.inr (b.mem_unfiled.mpr ⟨r, hr, hkey, hword⟩))

end UrlIndexBuilder

lemma filedLe_iff (a b : Filed) :
    filedLe a b ↔ a.1.toNat < b.1.toNat ∨ (a.1.toNat = b.1.toNat ∧
      (a.2.1.toNat < b.2.1.toNat ∨ (a.2.1.toNat = b.2.1.toNat ∧ a.2.2 ≤ b.2.2))) := by
  obtain ⟨x, h, i⟩ := a
  obtain ⟨y, k, j⟩ := b
  simp only [filedLe, UInt64.lt_iff_toNat_lt, UInt64.toNat_inj]
  cases x <;> cases y <;> simp

instance : Std.Total filedLe := ⟨fun a b => by
  rw [filedLe_iff, filedLe_iff]
  omega⟩

instance : IsTrans Filed filedLe := ⟨fun a b c => by
  simp only [filedLe_iff]
  omega⟩

lemma hash_eq_of_between (hab : filedLe a b) (hbc : filedLe b c)
    (hflag : a.1 = c.1) (hhash : a.2.1 = c.2.1) : b.2.1 = c.2.1 := by
  rw [filedLe_iff] at hab hbc
  have hflag' := congrArg Bool.toNat hflag
  have hhash' := congrArg UInt64.toNat hhash
  apply UInt64.toNat_inj.mp
  omega

lemma clustered_of_sorted {l : List Filed} (hsorted : l.Pairwise filedLe)
    (hapart : ∀ e ∈ l, ∀ e' ∈ l, e.2.1 = e'.2.1 → e.1 = e'.1) :
    Runs.Clustered ((l.map Prod.snd).map Prod.fst) := by
  intro before k hpre hmem
  rw [map_map] at hpre
  obtain ⟨l', hl', heq⟩ := prefix_map_iff.mp hpre
  obtain ⟨l₁, tail, hl₁, rfl, htail⟩ := append_eq_map_iff.mp heq
  obtain ⟨x, rfl, rfl⟩ := map_eq_singleton_iff.mp htail
  obtain ⟨e, he, hhash⟩ := mem_map.mp hmem
  rcases eq_nil_or_concat' l₁ with rfl | ⟨front, y, rfl⟩
  · cases he
  have hsub : (front ++ [y] ++ [x]).Pairwise filedLe := by
    rw [← hl₁]
    exact hsorted.sublist hl'.sublist
  have hmem' : ∀ z ∈ front ++ [y] ++ [x], z ∈ l := by
    rw [← hl₁]
    exact fun z hz => hl'.subset hz
  have hyx : filedLe y x := (pairwise_append.mp hsub).2.2 y (by simp) x (by simp)
  have hkey : y.2.1 = x.2.1 := by
    rcases mem_append.mp he with hfront | hlast
    · -- the key occurred before the last entry, so it spans up to here
      have hey : filedLe e y :=
        (pairwise_append.mp (pairwise_append.mp hsub).1).2.2 e hfront y (by simp)
      exact hash_eq_of_between hey hyx
        (hapart e (hmem' e (by simp [hfront])) x (hmem' x (by simp)) hhash) hhash
    · rw [← mem_singleton.mp hlast]
      exact hhash
  simp [hkey]

lemma bucketsOf_snoc (l : List Filed) (e : Filed) :
    bucketsOf (l ++ [e]) = (bucketsOf l).push e := by
  simp [bucketsOf]

lemma packs_bucketsOf (l : List Filed) :
    Runs.Packs (bucketsOf l).runs (Runs.runsOf (l.map Prod.snd)) := by
  induction l using List.reverseRecOn with
  | nil => exact Runs.packs_empty
  | append_singleton l e ih =>
    rw [bucketsOf_snoc, map_append, map_singleton, Runs.runsOf_snoc]
    exact ih.push e.2

lemma mem_of_mem_keys {hash : UInt64}
    (h : hash ∈ (bucketsOf l).runs.keys) : ∃ e ∈ l, e.2.1 = hash := by
  rw [(packs_bucketsOf l).keys] at h
  obtain ⟨x, hx, rfl⟩ := mem_map.mp (Runs.mem_keys_runsOf _ h)
  obtain ⟨e, he, rfl⟩ := mem_map.mp hx
  exact ⟨e, he, rfl⟩

/-- Every window key lies in the tail of the keys that the window tier's start
marks. -/
structure MarksWindows (buckets : Buckets) (l : List Filed) : Prop where
  inside : ∀ s, buckets.ngramStart = some s → s ≤ buckets.runs.keys.length
  marked : ∀ e ∈ l, e.1 = true →
    ∃ s, buckets.ngramStart = some s ∧ e.2.1 ∈ buckets.runs.keys.drop s

lemma MarksWindows.push (h : MarksWindows (bucketsOf l) l)
    (hapart : ∀ x ∈ l, x.2.1 = e.2.1 → x.1 = e.1) :
    MarksWindows ((bucketsOf l).push e) (l ++ [e]) := by
  by_cases hlast : (bucketsOf l).runs.keys.getLast? = some e.2.1
  · -- the key is there: it came from an entry of the same tier
    have hpush : (bucketsOf l).push e =
        { bucketsOf l with runs := { (bucketsOf l).runs with
            items := (bucketsOf l).runs.items ++ [e.2.2] } } := by
      simp [Buckets.push, Runs.push, hlast]
    rw [hpush]
    refine ⟨h.inside, fun x hx hflag => ?_⟩
    rcases mem_append.mp hx with hx | hx
    · exact h.marked x hx hflag
    · rw [mem_singleton.mp hx] at hflag ⊢
      obtain ⟨y, hy, hkey⟩ := mem_of_mem_keys (mem_of_getLast? hlast)
      rw [← hkey]
      exact h.marked y hy ((hapart y hy hkey).trans hflag)
  · have hkeys : ((bucketsOf l).push e).runs.keys = (bucketsOf l).runs.keys ++ [e.2.1] := by
      simp [Buckets.push, Runs.push, hlast]
    cases hstart : (bucketsOf l).ngramStart with
    | some s =>
      have hsame : ((bucketsOf l).push e).ngramStart = some s := by
        simp [Buckets.push, hstart]
      have hin := h.inside s hstart
      refine ⟨fun s' hs' => ?_, fun x hx hflag => ⟨s, hsame, ?_⟩⟩
      · rw [hkeys, length_append]
        rw [hsame] at hs'
        cases hs'
        omega
      · rw [hkeys, drop_append_of_le_length hin, mem_append]
        rcases mem_append.mp hx with hx | hx
        · obtain ⟨s', hs', hmem⟩ := h.marked x hx hflag
          rw [hstart] at hs'
          cases hs'
          exact .inl hmem
        · rw [mem_singleton.mp hx]
          exact .inr mem_cons_self
    | none =>
      have hold : ∀ x ∈ l, x.1 = false := by
        intro x hx
        by_contra hflag
        obtain ⟨s, hs, -⟩ := h.marked x hx (by simpa using hflag)
        rw [hstart] at hs
        cases hs
      have hnew : ((bucketsOf l).push e).ngramStart =
          if e.1 = true then some (bucketsOf l).runs.keys.length else none := by
        simp [Buckets.push, hstart, hlast]
      refine ⟨fun s hs => ?_, fun x hx hflag => ?_⟩
      · rw [hnew] at hs
        split at hs
        · cases hs
          simp [hkeys]
        · cases hs
      · rcases mem_append.mp hx with hx | hx
        · rw [hold x hx] at hflag
          cases hflag
        · rw [mem_singleton.mp hx] at hflag ⊢
          exact ⟨_, by rw [hnew, if_pos hflag], by simp [hkeys]⟩

lemma marksWindows_bucketsOf
    (hapart : ∀ e ∈ l, ∀ e' ∈ l, e.2.1 = e'.2.1 → e.1 = e'.1) : MarksWindows (bucketsOf l) l := by
  induction l using List.reverseRecOn with
  | nil => exact ⟨fun s hs => (by cases hs), fun e he => (by cases he)⟩
  | append_singleton l e ih =>
    rw [bucketsOf_snoc]
    exact (ih fun x hx y hy => hapart x (by simp [hx]) y (by simp [hy])).push
      fun x hx hkey => hapart x (by simp [hx]) e (by simp) hkey

lemma foldl_set_mono (index : UInt64 → Option Nat) (hashes : List UInt64) (bits : List UInt64)
    (hin : ∀ hash ∈ hashes, ∀ i, index hash = some i → i < bits.length * 64) :
    let bits' := hashes.foldl (fun bits hash => (index hash).elim bits (Bitmap.set bits)) bits
    bits'.length = bits.length ∧
      (∀ i, Bitmap.test bits i = true → Bitmap.test bits' i = true) ∧
      ∀ hash ∈ hashes, ∀ i, index hash = some i → Bitmap.test bits' i = true := by
  induction hashes generalizing bits with
  | nil => exact ⟨rfl, fun i hi => hi, fun hash hmem => (by cases hmem)⟩
  | cons hash hashes ih =>
    rw [foldl_cons]
    cases hindex : index hash with
    | none =>
      obtain ⟨hlen, hmono, hset⟩ := ih bits fun x hx => hin x (mem_cons_of_mem _ hx)
      refine ⟨hlen, hmono, fun x hx i hi => ?_⟩
      rcases mem_cons.mp hx with rfl | hx
      · rw [hindex] at hi
        cases hi
      · exact hset x hx i hi
    | some j =>
      have hj := hin hash mem_cons_self j hindex
      obtain ⟨hlen, hmono, hset⟩ := ih (Bitmap.set bits j) fun x hx i hi => by
        rw [Bitmap.length_set]
        exact hin x (mem_cons_of_mem _ hx) i hi
      refine ⟨hlen.trans (Bitmap.length_set _ _),
        fun i hi => hmono i ((Bitmap.test_set hj i).mpr (.inr hi)), fun x hx i hi => ?_⟩
      rcases mem_cons.mp hx with rfl | hx
      · rw [hindex] at hi
        cases hi
        exact hmono j ((Bitmap.test_set hj j).mpr (.inl rfl))
      · exact hset x hx i hi

/-- **The filter lets every filed window pass.** -/
theorem test_buildBits (wordOf : List (UInt64 × UInt32)) {hashes : List UInt64}
    {hash : UInt64} {word : UInt32} (hmem : hash ∈ hashes)
    (hword : wordOf.lookup hash = some word) :
    Bitmap.test (buildBits wordOf hashes)
      (ngramFold word &&& ((buildBits wordOf hashes).length * 64 - 1)) = true := by
  have hne : hashes.isEmpty = false := by
    rw [isEmpty_eq_false_iff]
    rintro rfl
    cases hmem
  simp only [buildBits, hne, Bool.false_eq_true, if_false]
  generalize hsize : max (nextPowerOfTwo hashes.length) 8 = size
  obtain ⟨hlen, -, hset⟩ := foldl_set_mono
    (fun hash => (wordOf.lookup hash).map fun word => ngramFold word &&& (size * 64 - 1))
    hashes (List.replicate size 0) (by
      intro x _ i hi
      obtain ⟨w, -, rfl⟩ := Option.map_eq_some_iff.mp hi
      have := Nat.and_le_right (n := ngramFold w) (m := size * 64 - 1)
      rw [length_replicate]
      omega)
  rw [hlen, length_replicate]
  exact hset hash hmem _ (by rw [hword]; rfl)

lemma lookup_ngramWordOf (b : UrlIndexBuilder) (he : e ∈ b.filedUnsorted) (hword : e.2.1 = ngramHash word) (hflag : e.1 = true) :
    b.ngramWordOf.lookup e.2.1 = some word := by
  have hall : ∀ x ∈ b.ngramWordOf, x.1 = ngramHash x.2 := by
    intro x hx
    obtain ⟨y, -, hy⟩ := mem_filterMap.mp hx
    obtain ⟨w, -, rfl⟩ := Option.map_eq_some_iff.mp hy
    rfl
  have hmem : (e.2.1, word) ∈ b.ngramWordOf := by
    obtain ⟨r, hr, ⟨hfalse, -⟩ | ⟨-, hnone, w, hw, hhash⟩⟩ := b.mem_filedUnsorted.mp he
    · rw [hflag] at hfalse
      cases hfalse
    · rw [hword] at hhash
      rw [hword, UrlIndexBuilder.ngramWordOf, mem_filterMap]
      exact ⟨(e.2.2, some word), b.mem_ngramFiling.mpr
        ⟨r, hr, hnone, by rw [hw, ngramHash_injective hhash]⟩, rfl⟩
  generalize b.ngramWordOf = entries at hall hmem
  induction entries with
  | nil => cases hmem
  | cons x entries ih =>
    obtain ⟨key, w⟩ := x
    rw [lookup_cons]
    by_cases hkey : e.2.1 = key
    · have hsame : ngramHash w = ngramHash word := by
        rw [← hall _ mem_cons_self, ← hword]
        exact hkey.symm
      simp [hkey, ngramHash_injective hsame]
    · have hrest : (e.2.1, word) ∈ entries := by
        rcases mem_cons.mp hmem with heq | hrest
        · exact absurd (congrArg Prod.fst heq) hkey
        · exact hrest
      rw [beq_false_of_ne hkey]
      exact ih (fun y hy => hall y (mem_cons_of_mem _ hy)) hrest

lemma sum_filing (weight : Nat → Nat) (filing : List (Nat × Option κ)) :
    ((filing.filterMap fun e => e.2.map fun _ => e.1).map weight).sum +
        ((filing.filterMap fun e => if e.2.isNone then some e.1 else none).map weight).sum =
      (filing.map fun e => weight e.1).sum := by
  induction filing with
  | nil => rfl
  | cons e filing ih =>
    obtain ⟨i, key⟩ := e
    cases key with
    | none | some => simp [← ih]; omega

lemma sum_filed_le (b : UrlIndexBuilder) (weight : Nat → Nat) :
    (b.filedUnsorted.map fun e => weight e.2.2).sum ≤
      ((List.range b.records.length).map weight).sum := by
  have hbounded := sum_filing weight b.boundedFiling
  have hngram := sum_filing weight b.ngramFiling
  have hneeds : (b.ngramFiling.map fun e => weight e.1) = b.needsNgram.map weight := by
    rw [UrlIndexBuilder.ngramFiling, map_map]
    rfl
  have hall : (b.boundedFiling.map fun e => weight e.1) =
      (List.range b.records.length).map weight := by
    rw [UrlIndexBuilder.boundedFiling, map_map, range_eq_range',
      ← zipIdx_map_snd, map_map]
    rfl
  rw [hneeds] at hngram
  rw [hall] at hbounded
  have hfiled : b.filedUnsorted.map (fun e => weight e.2.2) =
      (b.boundedFiling.filterMap fun e => e.2.map fun _ => e.1).map weight ++
        (b.ngramFiling.filterMap fun e => e.2.map fun _ => e.1).map weight := by
    simp only [UrlIndexBuilder.filedUnsorted, map_append, map_filterMap,
      Option.map_map]
    rfl
  have hrest : (b.needsNgram.map weight).sum =
      ((b.boundedFiling.filterMap fun e =>
        if e.2.isNone then some e.1 else none).map weight).sum := rfl
  rw [hfiled, sum_append]
  omega

lemma minTokenLen_le_of_indexKey (h : key ∈ indexKeys pattern anchor endAnchored) :
    minTokenLen ≤ pattern.length := by
  obtain ⟨token, htoken, hsome⟩ := mem_filterMap.mp h
  obtain ⟨a, c, ht⟩ := (mem_tokens_iff pattern token).mp htoken
  simp only at hsome
  split at hsome
  · cases hsome
  · next hlen =>
    rw [ht.split, length_append, length_append]
    omega

lemma minTokenLen_le_of_ngramKey (h : key ∈ ngramKeys pattern) : minTokenLen ≤ pattern.length := by
  obtain ⟨run, hrun, hkey⟩ := mem_flatMap.mp h
  obtain ⟨w, hw, -⟩ := mem_map.mp hkey
  obtain ⟨a, c, hsplit, -⟩ := split_of_mem_splitBy hrun
  obtain ⟨a', c', hrun', hlen⟩ := (mem_windows_iff _ _ _).mp hw
  rw [hsplit, hrun']
  simp only [length_append]
  omega

/-- What the builder keeps about its arena: the patterns lie side by side in
it, and it has not passed its limit by more than one pattern. -/
structure UrlIndexBuilder.Fits (b : UrlIndexBuilder) : Prop where
  patterns : (b.records.map Record.patLen).sum = b.patterns.length
  small : b.patterns.length < 4294967296 + 65536

lemma UrlIndexBuilder.Fits.filed_length (b : UrlIndexBuilder) (h : b.Fits) :
    minTokenLen * b.filedUnsorted.length ≤ b.patterns.length := by
  have hle := sum_filed_le b fun i => (b.records[i]?).elim 0 Record.patLen
  have htotal : (List.range b.records.length).map
      (fun i => (b.records[i]?).elim 0 Record.patLen) = b.records.map Record.patLen := by
    apply ext_getElem (by simp)
    intro i hi _
    have hlt : i < b.records.length := by simpa using hi
    simp [hlt]
  rw [htotal, h.patterns] at hle
  have hmin : ∀ e ∈ b.filedUnsorted,
      minTokenLen ≤ (b.records[e.2.2]?).elim 0 Record.patLen := by
    intro e he
    have hpattern : ∀ r : Record, (b.patternOf r).length ≤ r.patLen := fun r => by
      simp [UrlIndexBuilder.patternOf]
    obtain ⟨r, hr, ⟨-, hkey⟩ | ⟨-, -, word, hword, -⟩⟩ := b.mem_filedUnsorted.mp he
    · obtain ⟨len, hmem⟩ := exists_mem_of_rarest _ hkey
      obtain ⟨key, hkey, -⟩ := mem_map.mp hmem
      rw [hr]
      exact (minTokenLen_le_of_indexKey hkey).trans (hpattern r)
    · obtain ⟨len, hmem⟩ := exists_mem_of_rarest _ hword
      rw [hr]
      exact (minTokenLen_le_of_ngramKey hmem).trans (hpattern r)
  have hsum := card_nsmul_le_sum
    (b.filedUnsorted.map fun e => (b.records[e.2.2]?).elim 0 Record.patLen) minTokenLen
    (by
      intro x hx
      obtain ⟨e, he, rfl⟩ := mem_map.mp hx
      exact hmin e he)
  rw [length_map, smul_eq_mul, Nat.mul_comm] at hsum
  exact hsum.trans hle

section Table

variable {m : UrlIndex}

/-- The table holds every bucket once, with room to spare. -/
structure UrlIndex.Tabled (m : UrlIndex) : Prop where
  room : m.bucketHash.length < m.slots.length
  slots : Holds emptySlot (fun v => fastrange (m.bucketHash.getD v 0) m.slots.length) m.slots
    (List.range m.bucketHash.length)

/-- **The table finds the bucket of a key.** -/
theorem UrlIndex.Tabled.bucketOf_eq (h : m.Tabled) (hnodup : m.bucketHash.Nodup)
    {bucket : Nat} {hash : UInt64} (hget : m.bucketHash[bucket]? = some hash) :
    m.bucketOf hash = some bucket := by
  obtain ⟨hlt, hval⟩ := List.getElem?_eq_some_iff.mp hget
  have hne : m.bucketHash.isEmpty = false := by
    rw [isEmpty_eq_false_iff]
    rintro heq
    simp [heq] at hlt
  have hroom := h.room
  have hfind : (List.range m.bucketHash.length).find?
      (fun v => m.bucketHash[v]? == some hash) = some bucket := by
    rw [find?_range_eq_some]
    refine ⟨by simp [hget], mem_range.mpr hlt, fun v hv => ?_⟩
    have hne' : m.bucketHash[v] ≠ hash := fun heq =>
      hv.ne ((hnodup.getElem_inj_iff).mp (heq.trans hval.symm))
    simpa [hv.trans hlt] using hne'
  simp only [UrlIndex.bucketOf, hne]
  rw [h.slots.probeLoop_eq (fastrange_lt _ (by omega)) (by simpa using hroom), foldlM_stop_eq,
    hfind]
  · rfl
  · intro v hv hempty hhome st
    rw [if_neg]
    intro heq
    rw [beq_iff_eq] at heq
    exact hhome (by simp [heq])

end Table

section Reach

/-- No bounded key of a rule shares its hash with a window of a rule. -/
def UrlIndex.KeysApart (m : UrlIndex) : Prop :=
  ∀ r ∈ m.records, ∀ r' ∈ m.records,
    ∀ key ∈ indexKeys (m.patternOf r) r.anchor r.endAnchored,
      ∀ window ∈ ngramKeys (m.patternOf r'), hashKey key.1 key.2.1 ≠ ngramHash window.1

instance (m : UrlIndex) : Decidable m.KeysApart :=
  inferInstanceAs (Decidable (∀ r ∈ m.records, ∀ r' ∈ m.records,
    ∀ key ∈ indexKeys (m.patternOf r) r.anchor r.endAnchored,
      ∀ window ∈ ngramKeys (m.patternOf r'), hashKey key.1 key.2.1 ≠ ngramHash window.1))

/-- How a lookup comes to a record: it scans it, or a key of its own pattern
leads to its bucket. -/
inductive Reaches (m : UrlIndex) (i : Nat) (r : Record) : Prop
  | scanned (hmem : i ∈ m.unindexed)
  | keyed (key : KeyKind × Bytes × Nat) (bucket : Nat)
      (hkey : key ∈ indexKeys (m.patternOf r) r.anchor r.endAnchored)
      (hbucket : m.bucketOf (hashKey key.1 key.2.1) = some bucket)
      (hmem : i ∈ m.bucketSlice bucket)
  | window (key : UInt32 × Nat) (bucket : Nat)
      (hkey : key ∈ ngramKeys (m.patternOf r))
      (hpass : m.ngramMayHold key.1 = true)
      (hbucket : m.bucketOf (ngramHash key.1) = some bucket)
      (hmem : i ∈ m.bucketSlice bucket)

variable {b : UrlIndexBuilder}

lemma UrlIndexBuilder.mem_filed : e ∈ b.filed ↔ e ∈ b.filedUnsorted :=
  (perm_insertionSort filedLe b.filedUnsorted).mem_iff

lemma length_keys_le (l : List Filed) : (bucketsOf l).runs.keys.length ≤ l.length := by
  induction l using List.reverseRecOn with
  | nil => exact Nat.le_refl 0
  | append_singleton l e ih =>
    rw [bucketsOf_snoc, Buckets.push, Runs.push, length_append, length_singleton]
    split
    · exact ih.trans (Nat.le_succ _)
    · rw [length_append, length_singleton]
      omega

/-- **Building succeeds, and its table holds every bucket.** -/
theorem UrlIndexBuilder.Fits.build (h : b.Fits) (full : UInt16) :
    ∃ slots, b.build full = some (b.compiled full slots) ∧ (b.compiled full slots).Tabled := by
  generalize hkeys : b.layout.runs.keys = hashes
  have hcount : minTokenLen * hashes.length ≤ b.patterns.length := by
    have hle : hashes.length ≤ b.filed.length := by
      rw [← hkeys]
      exact (length_keys_le _).trans (length_take_le' _ _)
    rw [UrlIndexBuilder.filed, length_insertionSort] at hle
    exact (Nat.mul_le_mul_left _ hle).trans h.filed_length
  have hsmall := h.small
  simp only [minTokenLen] at hcount
  generalize hcap : max (hashes.length * 10 / 7) 8 = cap
  have hroom : hashes.length < cap := by omega
  have hmap : hashes.zipIdx.map Prod.snd = List.range hashes.length := by
    rw [zipIdx_map_snd, range_eq_range']
  obtain ⟨slots, hslots, hlen, hholds⟩ := Holds.placeAll
    (fun x : UInt64 × Nat => fastrange x.1 cap) Prod.snd hashes.zipIdx
    (holds_replicate emptySlot (fun v => fastrange (hashes.getD v 0) cap) cap)
    (by
      rintro ⟨hash, v⟩ hx
      have hget := mem_zipIdx_iff_getElem?.mp hx
      have hlt := (List.getElem?_eq_some_iff.mp hget).1
      refine ⟨by simp only [getD_eq_getElem?_getD, hget, Option.getD_some],
        by simpa using fastrange_lt _ (by omega), ?_⟩
      simp only [emptySlot]
      omega)
    (by rw [nil_append, hmap]; exact nodup_range)
    (by simp; omega)
  rw [length_replicate] at hlen
  rw [nil_append, hmap] at hholds
  refine ⟨slots, ?_, ?_⟩
  · simp only [UrlIndexBuilder.build, hkeys, hcap, hslots]
    rfl
  · constructor
    · simp only [UrlIndexBuilder.compiled, hkeys, hlen]
      exact hroom
    · simpa only [UrlIndexBuilder.compiled, hkeys, hlen] using hholds

lemma filed_apart (h : (b.compiled full slots).KeysApart) :
    ∀ e ∈ b.filed, ∀ e' ∈ b.filed, e.2.1 = e'.2.1 → e.1 = e'.1 := by
  have hcross : ∀ e ∈ b.filed, ∀ e' ∈ b.filed, e.2.1 = e'.2.1 → e.1 = false → e'.1 = false := by
    intro e he e' he' hhash hflag
    by_contra hflag'
    rw [UrlIndexBuilder.mem_filed] at he he'
    obtain ⟨r, hr, ⟨-, hkey⟩ | ⟨htrue, -⟩⟩ := b.mem_filedUnsorted.mp he
    · obtain ⟨r', hr', ⟨hfalse, -⟩ | ⟨-, -, word, hword, hhash'⟩⟩ := b.mem_filedUnsorted.mp he'
      · exact hflag' hfalse
      · obtain ⟨len, hmem⟩ := exists_mem_of_rarest _ hkey
        obtain ⟨key, hkey, heq⟩ := mem_map.mp hmem
        obtain ⟨run, hwindow⟩ := exists_mem_of_rarest _ hword
        have hsame : hashKey key.1 key.2.1 = ngramHash word :=
          (congrArg Prod.fst heq).trans (hhash.trans hhash')
        exact h r (mem_of_getElem? hr) r' (mem_of_getElem? hr') key hkey (word, run)
          hwindow hsame
    · rw [hflag] at htrue
      cases htrue
  intro e he e' he' hhash
  cases hflag : e.1 with
  | false => exact (hcross e he e' he' hhash hflag).symm
  | true =>
    by_contra hflag'
    have := hcross e' he' e he hhash.symm (by simpa using Ne.symm hflag')
    rw [hflag] at this
    cases this

variable {full : UInt16} {slots : List Nat}

lemma exists_bucket_of_kept (htable : (b.compiled full slots).Tabled)
    (hapart : ∀ e ∈ b.filed, ∀ e' ∈ b.filed, e.2.1 = e'.2.1 → e.1 = e'.1)
    (he : e ∈ b.filed.take b.kept) :
    ∃ bucket, (b.compiled full slots).bucketOf e.2.1 = some bucket ∧
      e.2.2 ∈ (b.compiled full slots).bucketSlice bucket := by
  have hpacks := packs_bucketsOf (b.filed.take b.kept)
  have hsorted : (b.filed.take b.kept).Pairwise filedLe :=
    (pairwise_insertionSort filedLe b.filedUnsorted).sublist (take_sublist _ _)
  have hnodup : (b.compiled full slots).bucketHash.Nodup := by
    change (bucketsOf (b.filed.take b.kept)).runs.keys.Nodup
    rw [hpacks.keys]
    exact Runs.nodup_keys _ (clustered_of_sorted hsorted fun x hx y hy =>
      hapart x (mem_of_mem_take hx) y (mem_of_mem_take hy))
  obtain ⟨g, hg, hkey, hrule⟩ := Runs.exists_run_of_mem (mem_map_of_mem he :
    (e.2.1, e.2.2) ∈ (b.filed.take b.kept).map Prod.snd)
  obtain ⟨bucket, hbucket⟩ := mem_iff_getElem?.mp hg
  refine ⟨bucket, htable.bucketOf_eq hnodup ?_, ?_⟩
  · change (bucketsOf (b.filed.take b.kept)).runs.keys[bucket]? = _
    rw [hpacks.keys, getElem?_map, hbucket, ← hkey]
    rfl
  · have hslice := hpacks.slice_eq hbucket
    rw [← hslice] at hrule
    exact hrule

lemma ngramMayHold_of_kept (hapart : ∀ e ∈ b.filed, ∀ e' ∈ b.filed, e.2.1 = e'.2.1 → e.1 = e'.1)
    (he : e ∈ b.filed.take b.kept) (hflag : e.1 = true) (hword : e.2.1 = ngramHash word) :
    (b.compiled full slots).ngramMayHold word = true := by
  have hmarks := marksWindows_bucketsOf (l := b.filed.take b.kept) fun x hx y hy =>
    hapart x (mem_of_mem_take hx) y (mem_of_mem_take hy)
  obtain ⟨s, hs, hmem⟩ := hmarks.marked e he hflag
  have hin := hmarks.inside s hs
  have hstart : min (b.layout.ngramStart.getD b.layout.runs.keys.length)
      b.layout.runs.keys.length = s := by
    rw [UrlIndexBuilder.layout, hs, Option.getD_some, Nat.min_eq_left hin]
  have hbits : (b.compiled full slots).ngramBits =
      buildBits b.ngramWordOf (b.layout.runs.keys.drop s) := by
    simp only [UrlIndexBuilder.compiled, hstart]
  rw [UrlIndex.ngramMayHold, hbits]
  exact test_buildBits _ hmem (lookup_ngramWordOf b
    (UrlIndexBuilder.mem_filed.mp (mem_of_mem_take he)) hword hflag)

/-- **Every record can be reached.** -/
theorem reaches_of_compiled (htable : (b.compiled full slots).Tabled)
    (hkeys : (b.compiled full slots).KeysApart) (hr : (b.compiled full slots).records[i]? = some r) :
    Reaches (b.compiled full slots) i r := by
  have hapart := filed_apart hkeys
  have hscanned : ∀ j, (j ∈ b.unfiled ∨ ∃ e ∈ b.filed.drop b.kept, e.2.2 = j) →
      j ∈ (b.compiled full slots).unindexed := by
    intro j hj
    simp only [UrlIndexBuilder.compiled, mem_insertionSort, mem_append, mem_map]
    exact hj
  -- a filed rule is kept, or past the cut and scanned
  have hsplit : ∀ e ∈ b.filedUnsorted, e ∈ b.filed.take b.kept ∨ e ∈ b.filed.drop b.kept := by
    intro e he
    rw [← mem_append, take_append_drop]
    exact UrlIndexBuilder.mem_filed.mpr he
  rcases b.filing_cases hr with ⟨hash, hkey, he⟩ | ⟨word, hword, he⟩ | hun
  · rcases hsplit _ he with hkept | hdropped
    · obtain ⟨len, hmem⟩ := exists_mem_of_rarest _ hkey
      obtain ⟨key, hkey, heq⟩ := mem_map.mp hmem
      obtain ⟨bucket, hbucket, hrule⟩ := exists_bucket_of_kept htable hapart hkept
      refine .keyed key bucket hkey ?_ hrule
      rw [← hbucket]
      exact congrArg (b.compiled full slots).bucketOf (congrArg Prod.fst heq)
    · exact .scanned (hscanned i (.inr ⟨_, hdropped, rfl⟩))
  · rcases hsplit _ he with hkept | hdropped
    · obtain ⟨run, hmem⟩ := exists_mem_of_rarest _ hword
      obtain ⟨bucket, hbucket, hrule⟩ := exists_bucket_of_kept htable hapart hkept
      exact .window (word, run) bucket hmem (ngramMayHold_of_kept hapart hkept rfl rfl)
        hbucket hrule
    · exact .scanned (hscanned i (.inr ⟨_, hdropped, rfl⟩))
  · exact .scanned (hscanned i (.inl hun))

end Reach

end FastAdHunter.Rules.Url
