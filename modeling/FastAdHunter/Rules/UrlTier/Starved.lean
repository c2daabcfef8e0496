import FastAdHunter.Rules.Matcher

/-!
# Lookups that run out of allowance

A rule whose allowance runs out is taken not to apply. For a rule that blocks, that
lets a request through; for an exception, it leaves a block standing that the exception
was there to lift. A lookup that is starved can therefore block a request which the
same lookup would allow if it could finish.
-/

namespace FastAdHunter.Rules.Url

open Lib Net Probing List

section Charges

variable (m : UrlIndex) (request : HttpRequest) (ctx : ClientContext)

lemma remaining_le_check (i : Nat) (budget : Budget) :
    budget.remaining ≤
      (m.check i (.new request ctx) budget).2.remaining + ruleStepCap request.url.length := by
  simp only [UrlIndex.check]
  split
  · exact Nat.le_add_right _ _
  · next r _ =>
    split
    · have hcharges := (metered_matchPattern r.anchor (m.patternOf r) request.url
        (Probe.new request ctx).hostStart (Probe.new request ctx).hostEnd r.endAnchored
        r.matchCase).charges (budget.openRule request.url.length)
      have habove := hcharges.above (Nat.sub_le _ _)
      simp only [UrlIndex.checkPattern, Budget.openRule, Probe.new] at habove ⊢
      omega
    · exact Nat.le_add_right _ _

lemma remaining_le_foldlM (l : List Nat) (st : Scan) :
    st.budget.remaining ≤ left (l.foldlM (m.visitRule (.new request ctx)) st) +
      l.length * ruleStepCap request.url.length := by
  induction l generalizing st with
  | nil => exact Nat.le_add_right _ _
  | cons i l ih =>
    have hvisit : st.budget.remaining ≤ left (m.visitRule (.new request ctx) st i) +
        ruleStepCap request.url.length := by
      rw [visitRule_eq, left_eq, spent_folded]
      exact remaining_le_check m request ctx i st.budget
    rw [foldlM_cons, length_cons, Nat.succ_mul]
    cases h : m.visitRule (.new request ctx) st i with
    | error found =>
      rw [h] at hvisit
      refine hvisit.trans ?_
      change left (.error found) + _ ≤ left (.error found) + _
      omega
    | ok st' =>
      rw [h] at hvisit
      have hrest := ih st'
      change _ ≤ left (l.foldlM (m.visitRule (.new request ctx)) st') + _
      change _ ≤ st'.budget.remaining + _ at hvisit
      omega

/-- A lookup has run out: a step was refused, and nothing of its allowance is left. -/
def RanOut (budget : Budget) : Prop :=
  budget.exhausted = true ∧ budget.remaining = 0

variable {m request ctx}

lemma RanOut.check (h : RanOut budget) (i : Nat) :
    RanOut (m.check i probe budget).2 := by
  simp only [UrlIndex.check]
  split
  · exact h
  · split
    · exact ⟨((metered_matchPattern ..).charges _).worn h.1,
        Nat.le_zero.mp (((metered_matchPattern ..).charges _).le.trans_eq h.2)⟩
    · exact h

end Charges

section Unlimited

variable {m : UrlIndex} {request : HttpRequest} {ctx : ClientContext}

def verdictOf : ScanResult → TierDecision
  | .error (index, _) => .allow index
  | .ok st =>
    match st.blocked with
    | some index => .block index
    | none => .pass

def UrlIndex.lookupWithin (m : UrlIndex) (allowance : Nat) (request : HttpRequest)
    (ctx : ClientContext) : TierDecision :=
  verdictOf (m.scan (Probe.new request ctx) ⟨none, ⟨allowance, 0, false⟩⟩)

/-- The verdict when the allowance never runs out: that of every allowance that is large
enough. -/
def UrlIndex.Unlimited (m : UrlIndex) (request : HttpRequest) (ctx : ClientContext)
    (decision : TierDecision) : Prop :=
  ∃ enough, ∀ allowance, enough ≤ allowance → m.lookupWithin allowance request ctx = decision

/-- What a rule says about a request: its options admit the request and its pattern
matches the URL. -/
def UrlIndex.Says (m : UrlIndex) (request : HttpRequest) (ctx : ClientContext) (i : Nat)
    (allow : Bool) : Prop :=
  ∃ r, m.records[i]? = some r ∧ r.isAllow = allow ∧ m.admits i r (.new request ctx) = true ∧
    PatternMatches r.anchor (m.patternOf r) request.url (hostSpan request.url).1
      (hostSpan request.url).2 r.endAnchored r.matchCase

lemma check_says_iff (i : Nat) (budget : Budget) (allow : Bool)
    (h : ruleStepCap request.url.length ≤ budget.remaining) :
    (m.check i (.new request ctx) budget).1 = some allow ↔ m.Says request ctx i allow := by
  simp only [UrlIndex.check, UrlIndex.Says]
  cases hr : m.records[i]? with
  | none => simp
  | some r =>
    have hpattern : (m.checkPattern r (.new request ctx) budget).1 = true ↔ _ :=
      checkPattern_iff r budget h
    by_cases hadmits : m.admits i r (.new request ctx) = true
    · simp only [hadmits]
      by_cases hmatches : (m.checkPattern r (.new request ctx) budget).1 = true
      all_goals simp [hmatches, hadmits, ← hpattern]
    · simp [hadmits]

lemma matchPattern_of_starved {anchor : UrlAnchor}
    (hle : hostStart ≤ url.length) (hroom : url.length < budget'.allowance)
    (h : (matchPattern anchor pattern url hostStart hostEnd endAnchored matchCase budget).1 =
      true) :
    (matchPattern anchor pattern url hostStart hostEnd endAnchored matchCase budget').1 = true := by
  cases anchor with
  | start =>
    refine (tryStarts_iff (pairwise_singleton _ _) (by simpa using hroom)).mpr ?_
    exact tryStarts_sound h
  | domain =>
    refine (tryStarts_iff (nested_labelStarts url hostStart hostEnd) ?_).mpr
      (tryStarts_sound h)
    intro s hs
    obtain ⟨front, heq, -⟩ := (mem_labelStarts_iff hle s).mp hs
    rw [heq, length_append] at hroom
    omega
  | anywhere =>
    cases pattern with
    | nil => rfl
    | cons first rest =>
      refine (tryStarts_iff (nested_anywhereStarts url first matchCase) ?_).mpr
        (tryStarts_sound h)
      exact fun s hs => lt_of_le_of_lt (length_le_of_mem_anywhereStarts hs) hroom

/-- **A rule that is found to apply does apply**, whatever the allowance. -/
theorem check_of_starved
    (h : (m.check i (.new request ctx) budget).1 = some allow) : m.Says request ctx i allow := by
  let full : Budget := ⟨ruleStepCap request.url.length, 0, false⟩
  have hfull : ruleStepCap request.url.length ≤ full.remaining := le_rfl
  refine (check_says_iff i full allow hfull).mp ?_
  simp only [UrlIndex.check] at h ⊢
  cases hr : m.records[i]? with
  | none =>
    rw [hr] at h
    cases h
  | some r =>
    rw [hr] at h
    dsimp only at h ⊢
    by_cases hadmits : m.admits i r (.new request ctx) = true
    · rw [if_pos hadmits] at h ⊢
      have hmatch : (m.checkPattern r (.new request ctx) budget).1 = true := by
        by_contra hno
        simp [hno] at h
      have hmatch' : (m.checkPattern r (.new request ctx) full).1 = true :=
        matchPattern_of_starved (hostSpan_start_le request.url) (allowance_openRule hfull) hmatch
      simpa [hmatch, hmatch'] using h
    · rw [if_neg hadmits] at h
      cases h

lemma blocked_foldlM {l : List Nat}
    (hfold : l.foldlM (m.visitRule (.new request ctx)) st = .ok st') (hi : st'.blocked = some i) :
    st.blocked = some i ∨ (i ∈ l ∧ m.Says request ctx i false) := by
  induction l generalizing st with
  | nil =>
    cases hfold
    exact .inl hi
  | cons j l ih =>
    rw [foldlM_cons] at hfold
    cases hvisit : m.visitRule (.new request ctx) st j with
    | error found =>
      rw [hvisit] at hfold
      cases hfold
    | ok next =>
      rw [hvisit] at hfold
      rcases ih hfold with hnext | ⟨hmem, hsays⟩
      · rw [visitRule_eq] at hvisit
        rcases hcheck : (m.check j (.new request ctx) st.budget).1 with - | ⟨- | -⟩
        · rw [hcheck] at hvisit
          cases hvisit
          exact .inl hnext
        · rw [hcheck] at hvisit
          cases hvisit
          rcases hblocked : st.blocked with - | k
          · dsimp only at hnext
            rw [hblocked] at hnext
            cases hnext
            exact .inr ⟨mem_cons_self, check_of_starved hcheck⟩
          · dsimp only at hnext
            rw [hblocked] at hnext
            exact .inl hnext
        · rw [hcheck] at hvisit
          cases hvisit
      · exact .inr ⟨mem_cons_of_mem _ hmem, hsays⟩

/-- What a rule answers when it has its whole share. -/
def UrlIndex.fullAnswer (m : UrlIndex) (request : HttpRequest) (ctx : ClientContext) (i : Nat) :
    Option Bool :=
  (m.check i (.new request ctx) ⟨ruleStepCap request.url.length, 0, false⟩).1

lemma fullAnswer_iff (i : Nat) (allow : Bool) :
    m.fullAnswer request ctx i = some allow ↔ m.Says request ctx i allow :=
  check_says_iff i _ allow le_rfl

/-- **A check that has not run out** answers what it answers with its whole share. -/
theorem check_full (h : ¬ RanOut (m.check i (.new request ctx) budget).2) :
    (m.check i (.new request ctx) budget).1 = m.fullAnswer request ctx i := by
  by_cases hcap : ruleStepCap request.url.length ≤ budget.remaining
  · exact check_congr i hcap le_rfl
  rw [UrlIndex.fullAnswer]
  simp only [UrlIndex.check] at h ⊢
  cases hr : m.records[i]? with
  | none => rfl
  | some r =>
    rw [hr] at h
    dsimp only at h ⊢
    by_cases hadmits : m.admits i r (.new request ctx) = true
    · rw [if_pos hadmits] at h
      simp only [if_pos hadmits]
      have hfloor : (budget.openRule request.url.length).floor = 0 :=
        Nat.sub_eq_zero_of_le (Nat.le_of_not_le hcap)
      rcases (metered_matchPattern r.anchor (m.patternOf r) request.url
          (hostSpan request.url).1 (hostSpan request.url).2 r.endAnchored r.matchCase).more
          (budget.openRule request.url.length) (ruleStepCap request.url.length) with
        ⟨hworn, hused⟩ | hmore
      · exact absurd ⟨hworn, Nat.le_zero.mp (hused.trans_eq hfloor)⟩ h
      · -- with a whole share on top the answer is the same, and exact
        have hfull : (m.checkPattern r (.new request ctx) budget).1 =
            (m.checkPattern r (.new request ctx) ⟨ruleStepCap request.url.length, 0, false⟩).1 := by
          have hroom : request.url.length < Budget.allowance
              { budget.openRule request.url.length with
                remaining := budget.remaining + ruleStepCap request.url.length } := by
            simp only [Budget.allowance, ruleStepCap]
            omega
          have hexact := @matchPattern_iff r.endAnchored r.matchCase (m.patternOf r) request.url _
            _ (hostSpan request.url).2 r.anchor (hostSpan_start_le request.url) hroom
          have hsame := congrArg (·.1 = true) hmore
          exact Bool.eq_iff_iff.mpr
            ((iff_of_eq hsame).symm.trans
              (hexact.trans (checkPattern_iff r ⟨_, 0, false⟩ le_rfl).symm))
        rw [hfull]
    · simp only [if_neg hadmits]

/-- A whole share for every rule that a lookup visits, and one more. -/
def UrlIndex.enough (m : UrlIndex) (url : Bytes) : Nat :=
  ((m.candidates url).length + 1) * ruleStepCap url.length

/-- **A lookup that has not run out**: its verdict is that of the answers the rules give
with their whole share. -/
theorem lookupWithin_settled {allowance : Nat}
    (h : ¬ RanOut (spent (m.scan (.new request ctx) ⟨none, ⟨allowance, 0, false⟩⟩))) :
    match m.lookupWithin allowance request ctx with
    | .allow i => i ∈ m.candidates request.url ∧ m.Says request ctx i true
    | .block i => (∀ k ∈ m.candidates request.url, ¬ m.Says request ctx k true) ∧
        (m.candidates request.url).find? (fun i => m.fullAnswer request ctx i == some false) =
          some i
    | .pass => ∀ k ∈ m.candidates request.url, ∀ allow, ¬ m.Says request ctx k allow := by
  have hscan : m.scan (.new request ctx) ⟨none, ⟨allowance, 0, false⟩⟩ =
      (m.candidates request.url).foldlM (m.visitRule (.new request ctx))
        ⟨none, ⟨allowance, 0, false⟩⟩ :=
    m.scan_eq (.new request ctx) _
  rw [hscan] at h
  have hfold := @foldlM_visits m _ (¬ RanOut ·) (fun i _ h hout => h (hout.check i)) _
    (fun i _ => check_full) _ _ h
  rw [UrlIndex.lookupWithin, hscan]
  revert hfold
  cases (m.candidates request.url).foldlM (m.visitRule (.new request ctx))
      ⟨none, ⟨allowance, 0, false⟩⟩ with
  | error found => exact fun hfound => ⟨hfound.1, (fullAnswer_iff _ _).mp hfound.2⟩
  | ok st =>
    rintro ⟨hno, hblocked⟩
    have hallow : ∀ k ∈ m.candidates request.url, ¬ m.Says request ctx k true :=
      fun k hk hsays => hno k hk ((fullAnswer_iff k true).mpr hsays)
    simp only [verdictOf, hblocked]
    cases hfind : (m.candidates request.url).find?
        (fun i => m.fullAnswer request ctx i == some false) with
    | some i => exact ⟨hallow, rfl⟩
    | none =>
      rw [find?_eq_none] at hfind
      rintro k hk (- | -) hsays
      · exact hfind k hk (by simp [(fullAnswer_iff k false).mpr hsays])
      · exact hallow k hk hsays

lemma not_ranOut_of_enough (ctx : ClientContext) {allowance : Nat}
    (h : m.enough request.url ≤ allowance) :
    ¬ RanOut (spent (m.scan (.new request ctx) ⟨none, ⟨allowance, 0, false⟩⟩)) := by
  rintro ⟨-, hzero⟩
  have hscan : m.scan (.new request ctx) ⟨none, ⟨allowance, 0, false⟩⟩ =
      (m.candidates request.url).foldlM (m.visitRule (.new request ctx))
        ⟨none, ⟨allowance, 0, false⟩⟩ :=
    m.scan_eq (.new request ctx) _
  have hleft := remaining_le_foldlM m request ctx (m.candidates request.url)
    ⟨none, ⟨allowance, 0, false⟩⟩
  rw [left_eq, ← hscan, hzero] at hleft
  rw [UrlIndex.enough, Nat.succ_mul] at h
  dsimp only at hleft
  have hcap : 0 < ruleStepCap request.url.length := Nat.succ_pos _
  omega

lemma unlimited_block_iff (m : UrlIndex) (request : HttpRequest) (ctx : ClientContext) :
    (∃ j, m.Unlimited request ctx (.block j)) ↔
      (∀ k ∈ m.candidates request.url, ¬ m.Says request ctx k true) ∧
        ∃ k ∈ m.candidates request.url, m.Says request ctx k false := by
  constructor
  · rintro ⟨j, enough, hlarge⟩
    have hblock := hlarge _ (le_max_left enough (m.enough request.url))
    have hverdict := lookupWithin_settled
      (not_ranOut_of_enough ctx (le_max_right enough (m.enough request.url)))
    rw [hblock] at hverdict
    refine ⟨hverdict.1, j, mem_of_find?_eq_some hverdict.2, ?_⟩
    exact (fullAnswer_iff j false).mp (by simpa using find?_some hverdict.2)
  · rintro ⟨hno, k, hk, hsays⟩
    cases hfind : (m.candidates request.url).find?
        (fun i => m.fullAnswer request ctx i == some false) with
    | none =>
      rw [find?_eq_none] at hfind
      exact absurd (by simp [(fullAnswer_iff k false).mpr hsays]) (hfind k hk)
    | some j =>
      refine ⟨j, m.enough request.url, fun allowance hlarge => ?_⟩
      have hverdict := lookupWithin_settled (not_ranOut_of_enough ctx hlarge)
      cases hdecision : m.lookupWithin allowance request ctx with
      | allow i =>
        rw [hdecision] at hverdict
        exact absurd hverdict.2 (hno i hverdict.1)
      | pass =>
        rw [hdecision] at hverdict
        exact absurd hsays (hverdict k hk false)
      | block i =>
        rw [hdecision] at hverdict
        rw [hfind] at hverdict
        rw [Option.some.inj hverdict.2]

/-- **When a block stands.** Under whatever allowance a lookup has blocked a request: it
would also block it under an unlimited one exactly when no exception among the rules it
comes to applies to the request. -/
theorem starved_block_iff {allowance i : Nat}
    (hblock : m.lookupWithin allowance request ctx = .block i) :
    (∃ j, m.Unlimited request ctx (.block j)) ↔
      ∀ k ∈ m.candidates request.url, ¬ m.Says request ctx k true := by
  have hsays : ∃ k ∈ m.candidates request.url, m.Says request ctx k false := by
    have hscan : m.scan (.new request ctx) ⟨none, ⟨allowance, 0, false⟩⟩ =
        (m.candidates request.url).foldlM (m.visitRule (.new request ctx))
          ⟨none, ⟨allowance, 0, false⟩⟩ :=
      m.scan_eq (.new request ctx) _
    rw [UrlIndex.lookupWithin, hscan] at hblock
    cases hfold : (m.candidates request.url).foldlM (m.visitRule (.new request ctx))
        ⟨none, ⟨allowance, 0, false⟩⟩ with
    | error found =>
      rw [hfold] at hblock
      cases hblock
    | ok st =>
      rw [hfold] at hblock
      have hi : st.blocked = some i := by
        rw [verdictOf] at hblock
        split at hblock
        · next index hindex =>
          cases hblock
          exact hindex
        · cases hblock
      rcases blocked_foldlM hfold hi with hnone | ⟨hmem, hsays⟩
      · cases hnone
      · exact ⟨i, hmem, hsays⟩
  rw [unlimited_block_iff]
  exact ⟨fun h => h.1, fun h => ⟨h, hsays⟩⟩

def pageRequest : HttpRequest where
  url := lit "http://ads.com/x"
  host := lit "ads.com"
  method := lit "GET"
  resourceType := .document
  documentHost := none

def anyClient : ClientContext := ⟨⟨0⟩, none, none⟩

/-- A rule on its own. -/
theorem starved_block_alone :
    ∃ m, compile 0 1 [⟨lit "base", lit "||ads.com/x", 1⟩] = some m ∧
      m.url.lookupWithin 1 pageRequest anyClient = .block 0 ∧
      ∃ j, m.url.Unlimited pageRequest anyClient (.block j) := by
  have hsome : (compile 0 1 [⟨lit "base", lit "||ads.com/x", 1⟩]).any (fun m =>
      decide (m.url.lookupWithin 1 pageRequest anyClient = .block 0 ∧
        m.url.candidates pageRequest.url = [0] ∧
        m.url.fullAnswer pageRequest anyClient 0 = some false)) = true := by
    decide +kernel
  obtain ⟨m, hm, hfacts⟩ := (Option.any_eq_true _ _).mp hsome
  obtain ⟨hblock, hcandidates, hanswer⟩ := of_decide_eq_true hfacts
  refine ⟨m, hm, hblock, (starved_block_iff hblock).mpr fun k hk hsays => ?_⟩
  rw [hcandidates, mem_singleton] at hk
  subst hk
  rw [(fullAnswer_iff 0 true).mpr hsays] at hanswer
  cases hanswer

/-- With an allowance for one rule, the exception after it is starved and the block
stands. -/
theorem starved_exception_blocks :
    ∃ m, compile 0 1 [⟨lit "base", lit "||ads.com/x\n@@||ads.com/x", 1⟩] = some m ∧
      m.url.lookupWithin 1 pageRequest anyClient = .block 0 ∧
      m.url.lookupWithin lookupStepCap pageRequest anyClient = .allow 1 ∧
      ¬ ∃ j, m.url.Unlimited pageRequest anyClient (.block j) := by
  have hsome : (compile 0 1 [⟨lit "base", lit "||ads.com/x\n@@||ads.com/x", 1⟩]).any (fun m =>
      decide (m.url.lookupWithin 1 pageRequest anyClient = .block 0 ∧
        m.url.lookupWithin lookupStepCap pageRequest anyClient = .allow 1 ∧
        m.url.candidates pageRequest.url = [0, 1] ∧
        m.url.fullAnswer pageRequest anyClient 1 = some true)) = true := by
    decide +kernel
  obtain ⟨m, hm, hfacts⟩ := (Option.any_eq_true _ _).mp hsome
  obtain ⟨hblock, hallow, hcandidates, hanswer⟩ := of_decide_eq_true hfacts
  refine ⟨m, hm, hblock, hallow, fun hunlimited => ?_⟩
  obtain ⟨hno, -⟩ := (unlimited_block_iff _ _ _).mp hunlimited
  have hmem : 1 ∈ m.url.candidates pageRequest.url := by simp [hcandidates]
  exact hno 1 hmem ((fullAnswer_iff 1 true).mp hanswer)

end Unlimited

end FastAdHunter.Rules.Url
