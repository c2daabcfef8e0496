import FastAdHunter.Rules.UrlTier.Layout

/-!
# The URL lookup misses no rule

A lookup visits a list of candidates that the URL alone determines: the
unindexed rules, the buckets of its tokens' keys, the buckets of its windows.
While the allowance lasts, every check answers what it answers on its own. So
the verdict is the verdict of the candidates, and the rules that apply are among
them.
-/

namespace FastAdHunter.Rules.Url

open Lib Net Probing List

section Check

lemma hostSpan_start_le (url : Bytes) : (hostSpan url).1 ≤ url.length := by
  simp only [hostSpan]
  cases hfind : findStr (lit "://") url with
  | none => exact Nat.zero_le _
  | some n =>
    obtain ⟨a, c, hsplit, rfl⟩ := findStr_eq_some hfind
    have hlen : (lit "://").length = 3 := rfl
    simp only [Option.elim_some]
    rw [hsplit, length_append, length_append]
    omega

lemma allowance_openRule {budget : Budget} (h : ruleStepCap n ≤ budget.remaining) :
    n < (budget.openRule n).allowance := by
  simp only [Budget.openRule, Budget.allowance, ruleStepCap] at h ⊢
  omega

variable {m : UrlIndex} {request : HttpRequest} {ctx : ClientContext}

/-- **The pattern part of a check is exact** while the allowance lasts. -/
theorem checkPattern_iff (r : Record) (budget : Budget)
    (h : ruleStepCap request.url.length ≤ budget.remaining) :
    (m.checkPattern r (.new request ctx) budget).1 = true ↔
      PatternMatches r.anchor (m.patternOf r) request.url (hostSpan request.url).1
        (hostSpan request.url).2 r.endAnchored r.matchCase :=
  matchPattern_iff r.anchor (hostSpan_start_le request.url) (allowance_openRule h)

lemma check_remaining_le (m : UrlIndex) (i : Nat) (probe : Probe) (budget : Budget) :
    (m.check i probe budget).2.remaining ≤ budget.remaining := by
  simp only [UrlIndex.check]
  split
  · exact le_rfl
  · split
    · exact ((metered_matchPattern ..).charges _).le
    · exact le_rfl

lemma check_congr (i : Nat) (h : ruleStepCap request.url.length ≤ budget.remaining)
    (h' : ruleStepCap request.url.length ≤ budget'.remaining) :
    (m.check i (.new request ctx) budget).1 = (m.check i (.new request ctx) budget').1 := by
  simp only [UrlIndex.check]
  split
  · rfl
  · next r _ =>
    split
    · have hiff : (m.checkPattern r (.new request ctx) budget).1 =
          (m.checkPattern r (.new request ctx) budget').1 := by
        rw [Bool.eq_iff_iff, checkPattern_iff r _ h, checkPattern_iff r _ h']
      rw [hiff]
    · rfl

end Check

section Fold

variable {m : UrlIndex} {request : HttpRequest} {ctx : ClientContext}

/-- The answer of a check run on its own. -/
def UrlIndex.answer (m : UrlIndex) (request : HttpRequest) (ctx : ClientContext) (i : Nat) :
    Option Bool :=
  (m.check i (.new request ctx) .new).1

def left : ScanResult → Nat
  | .error (_, budget) => budget.remaining
  | .ok st => st.budget.remaining

def spent : ScanResult → Budget
  | .error (_, budget) => budget
  | .ok st => st.budget

lemma left_eq (result : ScanResult) : left result = (spent result).remaining := by
  cases result <;> rfl

/-- What a visit makes of an answer. -/
def folded (st : Scan) (i : Nat) (budget : Budget) : Option Bool → ScanResult
  | some true => .error (i, budget)
  | some false => .ok ⟨st.blocked.or (some i), budget⟩
  | none => .ok ⟨st.blocked, budget⟩

lemma spent_folded (st : Scan) (i : Nat) (budget : Budget) (answer : Option Bool) :
    spent (folded st i budget answer) = budget := by
  rcases answer with - | ⟨- | -⟩ <;> rfl

lemma visitRule_eq (probe : Probe) (st : Scan) (i : Nat) :
    m.visitRule probe st i =
      folded st i (m.check i probe st.budget).2 (m.check i probe st.budget).1 := by
  rw [UrlIndex.visitRule]
  rcases m.check i probe st.budget with ⟨answer, budget⟩
  rcases answer with - | ⟨- | -⟩ <;> rfl

section Visits

-- what is asked of the allowance at the end of a scan has held all along
variable {probe : Probe} {ok : Budget → Prop}
  (hback : ∀ i budget, ok (m.check i probe budget).2 → ok budget)

include hback

lemma ok_of_foldlM (l : List Nat) (st : Scan)
    (h : ok (spent (l.foldlM (m.visitRule probe) st))) : ok st.budget := by
  induction l generalizing st with
  | nil => exact h
  | cons i l ih =>
    have hvisit : ok (spent (m.visitRule probe st i)) → ok st.budget := by
      rw [visitRule_eq, spent_folded]
      exact hback i st.budget
    rw [foldlM_cons] at h
    cases hstep : m.visitRule probe st i with
    | error found =>
      rw [hstep] at hvisit h
      exact hvisit h
    | ok st' =>
      rw [hstep] at hvisit h
      exact hvisit (ih st' h)

/-- **While the allowance lasts, a scan finds the first allow, or else the first
block, of the rules it visits**: `answer` is what a check says while it lasts. -/
theorem foldlM_visits {answer : Nat → Option Bool}
    (hcheck : ∀ i budget, ok (m.check i probe budget).2 → (m.check i probe budget).1 = answer i)
    (l : List Nat) (st : Scan) (hok : ok (spent (l.foldlM (m.visitRule probe) st))) :
    match l.foldlM (m.visitRule probe) st with
    | .error (i, _) => i ∈ l ∧ answer i = some true
    | .ok st' => (∀ i ∈ l, answer i ≠ some true) ∧
        st'.blocked = st.blocked.or (l.find? fun i => answer i == some false) := by
  induction l generalizing st with
  | nil =>
    refine ⟨fun i hi => (by cases hi), ?_⟩
    simp
  | cons i l ih =>
    rw [foldlM_cons] at hok ⊢
    have hanswer : ok (spent (m.visitRule probe st i)) →
        m.visitRule probe st i = folded st i (m.check i probe st.budget).2 (answer i) := by
      intro hspent
      rw [visitRule_eq, spent_folded] at hspent
      rw [visitRule_eq, hcheck i _ hspent]
    cases hvisit : m.visitRule probe st i with
    | error found =>
      rw [hvisit] at hok hanswer
      have heq := hanswer hok
      rcases hans : answer i with - | ⟨- | -⟩ <;> rw [hans] at heq <;> cases heq
      exact ⟨mem_cons_self, hans⟩
    | ok st' =>
      rw [hvisit] at hok hanswer
      have heq := hanswer (ok_of_foldlM hback l st' hok)
      have hrest := ih st' hok
      change match l.foldlM (m.visitRule probe) st' with
        | .error (j, _) => _
        | .ok st'' => _
      revert hrest
      cases l.foldlM (m.visitRule probe) st' with
      | error found => exact fun h => ⟨mem_cons_of_mem i h.1, h.2⟩
      | ok st'' =>
        rintro ⟨hno, hblocked⟩
        rcases hans : answer i with - | ⟨- | -⟩ <;> rw [hans] at heq <;>
          cases heq
        · refine ⟨forall_mem_cons.mpr ⟨by simp [hans], hno⟩, ?_⟩
          rw [hblocked, find?_cons_of_neg (by simp [hans])]
        · refine ⟨forall_mem_cons.mpr ⟨by simp [hans], hno⟩, ?_⟩
          rw [hblocked, find?_cons_of_pos (by simp [hans])]
          cases st.blocked <;> simp

end Visits

lemma left_foldlM_le (probe : Probe) (l : List Nat) (st : Scan) :
    left (l.foldlM (m.visitRule probe) st) ≤ st.budget.remaining := by
  refine @ok_of_foldlM m probe (left (l.foldlM (m.visitRule probe) st) ≤ ·.remaining)
    (fun i budget h => h.trans (check_remaining_le m i probe budget)) l st ?_
  rw [left_eq]

lemma foldlM_visitRule (l : List Nat) (st : Scan)
    (hnew : ruleStepCap request.url.length ≤ lookupStepCap) (hcap : ruleStepCap request.url.length ≤
      left (l.foldlM (m.visitRule (.new request ctx)) st)) :
    match l.foldlM (m.visitRule (.new request ctx)) st with
    | .error (i, _) => i ∈ l ∧ m.answer request ctx i = some true
    | .ok st' => (∀ i ∈ l, m.answer request ctx i ≠ some true) ∧
        st'.blocked = st.blocked.or (l.find? fun i => m.answer request ctx i == some false) :=
  @foldlM_visits m _ (ruleStepCap request.url.length ≤ ·.remaining)
    (fun i _ h => h.trans (check_remaining_le m i _ _)) _
    (fun i _ h => check_congr i (h.trans (check_remaining_le m i _ _)) hnew) l st
    (hcap.trans_eq (left_eq _))

end Fold

lemma foldlM_flatMap (f : α → List β) (visit : σ → β → Except ε σ) (l : List α) (st : σ) :
    (l.flatMap f).foldlM visit st = l.foldlM (fun st a => (f a).foldlM visit st) st := by
  induction l generalizing st with
  | nil => rfl
  | cons a l ih =>
    rw [flatMap_cons, foldlM_append, foldlM_cons]
    simp only [ih]

namespace UrlIndex

variable (m : UrlIndex)

/-- The rules a key leads to. -/
def rulesUnder (hash : UInt64) : List Nat :=
  (m.bucketOf hash).elim [] m.bucketSlice

def tokenRules (token : Token) : List Nat :=
  if token.text.length < minTokenLen then []
  else (probeKeys token.text).flatMap fun key => m.rulesUnder (hashKey key.1 key.2)

def sweepRules : Bytes → UInt32 → List UInt64 → List Nat
  | [], _, _ => []
  | b :: rest, word, seen =>
    let word := rollWord word b
    if m.ngramMayHold word then
      match m.bucketOf (ngramHash word) with
      | none => sweepRules rest word seen
      | some bucket =>
        match visitOnce seen bucket m.ngramBucketStart with
        | none => sweepRules rest word seen
        | some seen => m.bucketSlice bucket ++ sweepRules rest word seen
    else sweepRules rest word seen

/-- Every rule a lookup visits, in order. -/
def candidates (url : Bytes) : List Nat :=
  m.unindexed ++ (tokens url).flatMap m.tokenRules ++
    if m.ngramBits.isEmpty || decide (url.length < minTokenLen) then []
    else m.sweepRules (url.drop (minTokenLen - 1)) (ngramWord (url.take (minTokenLen - 1)))
      (List.replicate seenWords 0)

variable (probe : Probe)

lemma probeKey_eq (st : Scan) (key : KeyKind × Bytes) :
    m.probeKey probe st key =
      (m.rulesUnder (hashKey key.1 key.2)).foldlM (m.visitRule probe) st := by
  rw [probeKey, rulesUnder]
  cases m.bucketOf (hashKey key.1 key.2) <;> rfl

lemma probeToken_eq (st : Scan) (token : Token) :
    m.probeToken probe st token = (m.tokenRules token).foldlM (m.visitRule probe) st := by
  rw [probeToken, tokenRules]
  split
  · rfl
  · rw [foldlM_flatMap]
    simp only [← probeKey_eq]

lemma sweep_eq (rest : Bytes) (word : UInt32) (seen : List UInt64) (st : Scan) :
    m.sweep probe rest word seen st =
      (m.sweepRules rest word seen).foldlM (m.visitRule probe) st := by
  induction rest generalizing word seen st with
  | nil => rfl
  | cons b rest ih =>
    simp only [sweep, sweepRules]
    split
    · cases m.bucketOf (ngramHash (rollWord word b)) with
      | none => exact ih _ _ _
      | some bucket =>
        dsimp only
        cases visitOnce seen bucket m.ngramBucketStart with
        | none => exact ih _ _ _
        | some seen =>
          rw [foldlM_append]
          simp only [ih]
          rfl
    · exact ih _ _ _

/-- **The three phases are one fold over the candidates.** -/
theorem scan_eq (st : Scan) :
    m.scan probe st = (m.candidates probe.request.url).foldlM (m.visitRule probe) st := by
  have htoken : (fun st token => (m.tokenRules token).foldlM (m.visitRule probe) st) =
      m.probeToken probe := by
    funext st token
    exact (m.probeToken_eq probe st token).symm
  simp only [scan, candidates, foldlM_append, foldlM_flatMap, htoken, bind_assoc]
  congr 1
  funext st
  congr 1
  funext st
  split
  · rfl
  · exact m.sweep_eq probe _ _ _ st

end UrlIndex

lemma toNat_shift_or (word : UInt32) (b : UInt8) :
    ((word <<< 8) ||| b.toUInt32).toNat = (word.toNat * 256) % 4294967296 + b.toNat := by
  have hshift : (word <<< 8).toNat = (word.toNat % 16777216) <<< 8 := by
    simp only [UInt32.toNat_shiftLeft, Nat.shiftLeft_eq]
    change word.toNat * 256 % 4294967296 = _
    omega
  rw [UInt32.toNat_or, hshift, UInt8.toNat_toUInt32,
    ← Nat.shiftLeft_add_eq_or_of_lt (show b.toNat < 2 ^ 8 from b.toNat_lt), Nat.shiftLeft_eq]
  omega

lemma rollWord_eq (b : UInt8)
    (h : word.toNat % 65536 = (toLower x).toNat * 256 + (toLower y).toNat) :
    rollWord word b = ngramWord [x, y, b] ∧
      (rollWord word b).toNat % 65536 = (toLower y).toNat * 256 + (toLower b).toNat := by
  have hy := (toLower y).toNat_lt
  have hb := (toLower b).toNat_lt
  have hmask : ngramWordMask.toNat = 2 ^ 24 - 1 := by decide
  have hroll : (rollWord word b).toNat = (toLower x).toNat * 65536 +
      (toLower y).toNat * 256 + (toLower b).toNat := by
    rw [rollWord, UInt32.toNat_and, toNat_shift_or, hmask, Nat.and_two_pow_sub_one_eq_mod]
    omega
  have hword : (ngramWord [x, y, b]).toNat = (toLower x).toNat * 65536 +
      (toLower y).toNat * 256 + (toLower b).toNat := by
    simp only [ngramWord, foldl_cons, foldl_nil, toNat_shift_or]
    change (((0 * 256 % 4294967296 + _) * 256 % 4294967296 + _) * 256 % 4294967296 + _) = _
    omega
  exact ⟨UInt32.toNat_inj.mp (hroll.trans hword.symm), by rw [hroll]; omega⟩

lemma windows_cons (x y b : UInt8) (rest : Bytes) :
    windows minTokenLen (x :: y :: b :: rest) =
      [x, y, b] :: windows minTokenLen (y :: b :: rest) := by
  simp [windows, minTokenLen]

lemma visitOnce_claimed
    (hlen : seen.length = seenWords) (h : visitOnce seen bucket start = some seen') :
    seen'.length = seenWords ∧ (visitOnce seen' other start = none →
        other = bucket ∨ visitOnce seen other start = none) := by
  simp only [visitOnce] at h
  split at h
  · cases h
    exact ⟨hlen, .inr⟩
  · next hstart =>
    split at h
    · cases h
      exact ⟨hlen, .inr⟩
    · next hin =>
      split at h
      · cases h
      · cases h
        refine ⟨by rw [Bitmap.length_set, hlen], fun hnone => ?_⟩
        simp only [visitOnce] at hnone ⊢
        split at hnone
        · cases hnone
        · next hstart' =>
          split at hnone
          · cases hnone
          · next hin' =>
            split at hnone
            · next htest =>
              rcases (Bitmap.test_set (by rw [hlen]; omega) _).mp htest with heq | hold
              · exact .inl (by omega)
              · right
                rw [if_neg hstart', if_neg hin', if_pos hold]
            · cases hnone

lemma visitOnce_fresh (bucket start : Nat) :
    visitOnce (List.replicate seenWords 0) bucket start ≠ none := by
  simp only [visitOnce, Bitmap.test_replicate_zero]
  split
  · simp
  · split
    · simp
    · simp

lemma mem_sweepRules {m : UrlIndex} (seen : List UInt64)
    (hword : word.toNat % 65536 = (toLower x).toNat * 256 + (toLower y).toNat)
    (hlen : seen.length = seenWords) (hw : w ∈ windows minTokenLen (x :: y :: rest))
    (hpass : m.ngramMayHold (ngramWord w) = true)
    (hbucket : m.bucketOf (ngramHash (ngramWord w)) = some bucket) (hi : i ∈ m.bucketSlice bucket) :
    visitOnce seen bucket m.ngramBucketStart = none ∨ i ∈ m.sweepRules rest word seen := by
  induction rest generalizing x y word seen with
  | nil =>
    cases hw
  | cons b rest ih =>
    obtain ⟨hroll, hnext⟩ := rollWord_eq b hword
    rw [windows_cons, mem_cons] at hw
    simp only [UrlIndex.sweepRules]
    rcases hw with rfl | hw
    · rw [hroll, if_pos hpass, hbucket]
      dsimp only
      cases visitOnce seen bucket m.ngramBucketStart with
      | none => exact .inl rfl
      | some seen' => exact .inr (mem_append_left _ hi)
    · -- the window is further on: whatever this step claims, the rest finds it
      split
      · cases m.bucketOf (ngramHash (rollWord word b)) with
        | none => exact ih _ hnext hlen hw
        | some other =>
          dsimp only
          cases hvisit : visitOnce seen other m.ngramBucketStart with
          | none => exact ih _ hnext hlen hw
          | some seen' =>
            obtain ⟨hlen', hclaimed⟩ := visitOnce_claimed hlen hvisit
            rcases ih _ hnext hlen' hw with hnone | hmem
            · rcases hclaimed hnone with rfl | hold
              · exact .inr (mem_append_left _ hi)
              · exact .inl hold
            · exact .inr (mem_append_right _ hmem)
      · exact ih _ hnext hlen hw

section Complete

variable {m : UrlIndex} {request : HttpRequest} {ctx : ClientContext}

lemma matches_of_answer (hcap : ruleStepCap request.url.length ≤ lookupStepCap) (h : m.answer request ctx i = some allow) :
    ∃ r, m.records[i]? = some r ∧
      PatternMatches r.anchor (m.patternOf r) request.url (hostSpan request.url).1
        (hostSpan request.url).2 r.endAnchored r.matchCase := by
  simp only [UrlIndex.answer, UrlIndex.check] at h
  split at h
  · cases h
  · next r hr =>
    refine ⟨r, hr, ?_⟩
    split at h
    · split at h
      · next hmatch => exact (checkPattern_iff r .new hcap).mp hmatch
      · cases h
    · cases h

/-- **A rule that applies is a candidate.** -/
theorem mem_candidates_of_answer (hreach : ∀ i r, m.records[i]? = some r → Reaches m i r)
    (hcap : ruleStepCap request.url.length ≤ lookupStepCap)
    {i : Nat} {allow : Bool} (h : m.answer request ctx i = some allow) :
    i ∈ m.candidates request.url := by
  obtain ⟨r, hr, hmatch⟩ := matches_of_answer hcap h
  simp only [UrlIndex.candidates, mem_append]
  cases hreach i r hr with
  | scanned hmem => exact .inl (.inl hmem)
  | keyed key bucket hkey hbucket hmem =>
    obtain ⟨token, htoken, hlen, k, hk, hhash⟩ := exists_token_of_indexKey hmatch hkey
    refine .inl (.inr (mem_flatMap.mpr ⟨token, htoken, ?_⟩))
    rw [UrlIndex.tokenRules, if_neg (by omega)]
    refine mem_flatMap.mpr ⟨k, hk, ?_⟩
    rw [hhash, UrlIndex.rulesUnder, hbucket]
    exact hmem
  | window key bucket hkey hpass hbucket hmem =>
    obtain ⟨w, hw, hword⟩ := exists_window_of_ngramKey hmatch hkey
    rw [← hword] at hpass hbucket
    have hbits : m.ngramBits.isEmpty = false := by
      rw [isEmpty_eq_false_iff]
      intro hnil
      simp [UrlIndex.ngramMayHold, hnil, Bitmap.test] at hpass
    obtain ⟨a, c, hsplit, hwlen⟩ := (mem_windows_iff _ _ _).mp hw
    have hlen : minTokenLen ≤ request.url.length := by
      rw [hsplit, length_append, length_append]
      omega
    right
    rw [hbits, Bool.false_or, if_neg (by simpa using hlen)]
    generalize request.url = url at hw hlen
    rcases url with _ | ⟨x, _ | ⟨y, rest⟩⟩
    · cases hlen
    · simp [minTokenLen] at hlen
    · have hstart : (ngramWord [x, y]).toNat % 65536 =
          (toLower x).toNat * 256 + (toLower y).toNat := by
        have hx := (toLower x).toNat_lt
        have hy := (toLower y).toNat_lt
        simp only [ngramWord, foldl_cons, foldl_nil, toNat_shift_or]
        omega
      rcases mem_sweepRules (List.replicate seenWords 0) hstart (by simp) hw hpass
        hbucket hmem with hnone | hmem
      · exact absurd hnone (visitOnce_fresh bucket _)
      · exact hmem

/-- What the verdict says about all records. -/
def Verdict (m : UrlIndex) (request : HttpRequest) (ctx : ClientContext) : TierDecision → Prop
  | .allow i => m.answer request ctx i = some true
  | .block i => m.answer request ctx i = some false ∧ ∀ j, m.answer request ctx j ≠ some true
  | .pass => ∀ j, m.answer request ctx j = none

lemma left_candidates (m : UrlIndex) (request : HttpRequest) (ctx : ClientContext) :
    left ((m.candidates request.url).foldlM (m.visitRule (.new request ctx)) ⟨none, .new⟩) =
      (m.lookup request ctx).2.remaining := by
  have hscan : m.scan (.new request ctx) ⟨none, .new⟩ =
      (m.candidates request.url).foldlM (m.visitRule (.new request ctx)) ⟨none, .new⟩ :=
    m.scan_eq (.new request ctx) ⟨none, .new⟩
  rw [UrlIndex.lookup, ← hscan]
  cases m.scan (.new request ctx) ⟨none, .new⟩ <;> rfl

lemma lookup_remaining_le (m : UrlIndex) (request : HttpRequest) (ctx : ClientContext) :
    (m.lookup request ctx).2.remaining ≤ lookupStepCap := by
  rw [← left_candidates]
  exact left_foldlM_le _ _ _

/-- **The lookup misses no rule**: an allow if any allow applies, else a block
if any block applies, else a pass. -/
theorem UrlIndex.lookup_complete (hreach : ∀ i r, m.records[i]? = some r → Reaches m i r)
    (hcap : ruleStepCap request.url.length ≤ (m.lookup request ctx).2.remaining) :
    Verdict m request ctx (m.lookup request ctx).1 := by
  have hscan : m.scan (.new request ctx) ⟨none, .new⟩ =
      (m.candidates request.url).foldlM (m.visitRule (.new request ctx)) ⟨none, .new⟩ :=
    m.scan_eq (.new request ctx) ⟨none, .new⟩
  have hnew : ruleStepCap request.url.length ≤ lookupStepCap :=
    hcap.trans (lookup_remaining_le m request ctx)
  rw [← left_candidates] at hcap
  have hfold := foldlM_visitRule _ _ hnew hcap
  have hmem : ∀ {i : Nat} {allow : Bool}, m.answer request ctx i = some allow →
      i ∈ m.candidates request.url := mem_candidates_of_answer hreach hnew
  rw [UrlIndex.lookup, hscan]
  revert hfold
  cases (m.candidates request.url).foldlM (m.visitRule (.new request ctx)) ⟨none, .new⟩ with
  | error found => exact fun h => h.2
  | ok st =>
    rintro ⟨hno, hblocked⟩
    have hallow : ∀ j, m.answer request ctx j ≠ some true := fun j hj => hno j (hmem hj) hj
    dsimp only
    rw [hblocked]
    cases hfind : (m.candidates request.url).find?
        (fun i => m.answer request ctx i == some false) with
    | some i => exact ⟨by simpa using find?_some hfind, hallow⟩
    | none =>
      intro j
      rw [find?_eq_none] at hfind
      rcases hans : m.answer request ctx j with - | ⟨- | -⟩
      · rfl
      · exact absurd (by simp [hans]) (hfind j (hmem hans))
      · exact absurd hans (hallow j)

end Complete

end FastAdHunter.Rules.Url
