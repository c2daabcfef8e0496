import FastAdHunter.Lib.Interference
import FastAdHunter.Rules.Lifecycle.Operations

/-!
# The user's own rules

The user rules are stored like the copy of a list, under an id that no list is
meant to have. Every operation on lists writes and deletes copies under the ids of
registered lists, and a boot deletes those of ids that nothing claims, the user
rules excepted.
-/

namespace FastAdHunter.Rules.Lifecycle

open Lib

section Untouched

/-- No list has the id of the user rules. -/
def Apart (s : Manager) : Prop :=
  ∀ entry ∈ s.entries, entry.id ≠ userRulesId

/-- The stored user rules are as they were: on disk, and where the disk refused
them. -/
structure Untouched (s t : Manager) : Prop where
  raw : t.raw userRulesId = s.raw userRulesId
  pending : t.pending userRulesId = s.pending userRulesId

def Operation.SetsUserRules : Operation → Prop
  | .setUserRules _ => True
  | _ => False

/-- Operations that register no list under the id of the user rules. -/
def Operation.StaysApart : Operation → Prop
  | .addList config => config.id ≠ userRulesId
  | _ => True

def Access.Modest {β : Type} : Access β → Prop
  | .addEntry config => config.id ≠ userRulesId
  | _ => True

def Access.Clear {β : Type} : Access β → Prop
  | .addEntry config => config.id ≠ userRulesId
  | .insertPending id _ | .removePending id | .writeRaw id _ | .removeRaw id => id ≠ userRulesId
  | _ => True

variable {α β : Type} {i : Nat} {s t : Manager}

variable {op : Access β}

lemma Access.Minor.clear (h : op.Minor) : op.Clear := by
  cases op <;> trivial

lemma Access.Clear.untouched (h : op.Clear)
    (hrun : machine.run op i x s = some (b, t)) : Untouched s t := by
  have hframe : Frame op.touches s t := frame_of_run hrun
  refine ⟨hframe.raw _ fun htouches => ?_, hframe.pending _ fun htouches => ?_⟩
  all_goals cases op <;> simp_all [Access.touches, Access.Clear]

lemma Access.Clear.modest (h : op.Clear) : op.Modest := by
  cases op <;> first | exact h | trivial

lemma Access.Modest.apart (hop : op.Modest) (h : Apart s)
    (hrun : machine.run op i x s = some (b, t)) : Apart t := by
  have hframe : Frame op.touches s t := frame_of_run hrun
  cases op
  case addEntry config =>
    simp only [machine, Access.run] at hrun
    split at hrun <;> cases hrun
    · exact h
    · intro entry hentry
      rcases List.mem_append.mp hentry with hentry | hentry
      · exact h entry hentry
      · cases List.mem_singleton.mp hentry
        exact hop
  case removeEntries id =>
    cases hrun
    exact fun entry hentry => h entry (List.filter_sublist.subset hentry)
  all_goals
    rw [Apart, hframe.entries (by simp [Access.touches])]
    exact h

end Untouched

section Tidy

/-- A step of a thread that does not set the user rules leaves them alone. -/
def Respects (owns : Nat → Prop) (i : Nat) (s t : Manager) : Prop :=
  owns i ∨ Untouched s t

/-- What a thread does to the user rules, and what is known of its result, while no
list has their id. -/
def Tidy (owns : Nat → Prop) (i : Nat) {α : Type} (Q : α → Prop) (p : Prog Access α) : Prop :=
  ∀ s, Holds machine Apart (fun _ _ _ => True) (Respects owns) i (fun a _ => Q a) p s

variable {α β : Type} {owns : Nat → Prop} {i : Nat}

lemma stable_any : Stable (fun _ _ _ => True : Nat → Manager → Manager → Prop) :=
  ⟨fun _ _ => trivial, fun _ _ _ _ _ _ => trivial⟩

lemma Tidy.ret (h : Q a) : Tidy owns i Q (.ret a) :=
  fun _ _ _ => h

variable {p : Prog Access α}

lemma Tidy.bind
    (hp : Tidy owns i R p) (hk : ∀ a, R a → Tidy owns i Q (k a)) : Tidy owns i Q (p >>= k) :=
  fun s => Holds.bind stable_any ((hp s).mono fun a t ha => hk a ha t)

lemma Tidy.modest (hop : op.Modest)
    (howns : owns i) (h : ∀ b, Tidy owns i Q (next b)) : Tidy owns i Q (.act op next) :=
  fun _ _ _ hs _ b t hrun => ⟨.inl howns, hop.apart hs hrun, h b t⟩

lemma Tidy.clear (hop : op.Clear)
    (h : ∀ x s b t, Apart s → machine.run op i x s = some (b, t) → Tidy owns i Q (next b)) :
    Tidy owns i Q (.act op next) :=
  fun _ s _ hs x b t hrun =>
    ⟨.inr (hop.untouched hrun), hop.modest.apart hs hrun, h x s b t hs hrun t⟩

lemma Tidy.of_all (hp : p.All Access.Clear) : Tidy owns i (fun _ => True) p := by
  induction p with
  | ret a => exact Tidy.ret trivial
  | act op next ih => exact Tidy.clear hp.1 fun _ _ b _ _ _ => ih b (hp.2 b)

lemma Tidy.of_modest (howns : owns i) (hp : p.All Access.Modest) :
    Tidy owns i (fun _ => True) p := by
  induction p with
  | ret a => exact Tidy.ret trivial
  | act op next ih => exact Tidy.modest hp.1 howns fun b => ih b (hp.2 b)

lemma clear_of_minor (h : p.All Access.Minor) : p.All Access.Clear :=
  h.mono fun _ hop => hop.clear

end Tidy

section Operations

variable {α : Type} {owns : Nat → Prop} {i : Nat}

lemma compileAndSwap_clear : compileAndSwap.All Access.Clear :=
  compileAndSwap_all (fun _ hop => hop.clear) (fun _ => trivial) fun _ => trivial

lemma recompile_clear : recompile.All Access.Clear :=
  ⟨trivial, fun _ => compileAndSwap_clear.bind fun _ => ⟨trivial, fun _ => trivial⟩⟩

lemma commitRaw_clear {id : Bytes} (hid : id ≠ userRulesId) (text : Bytes) :
    (commitRaw id text).All Access.Clear := by
  refine ⟨hid, fun written => ?_⟩
  cases written with
  | true | false => exact ⟨hid, fun _ => trivial⟩

lemma cacheValidators_clear (id : Bytes) (validators : Validators) :
    (cacheValidators id validators).All Access.Clear := by
  rw [cacheValidators]
  split
  all_goals exact ⟨trivial, fun _ => trivial⟩

lemma commitChecked_clear (hid : entry.id ≠ userRulesId) (text : Bytes)
    (validators : Validators) (baseline : Option RefreshStats) :
    (commitChecked entry text validators baseline).All Access.Clear := by
  simp only [commitChecked, Prog.lift_bind]
  refine ⟨trivial, fun live => ?_⟩
  dsimp only
  split
  · refine (clear_of_minor (fallback_minor baseline entry.id)).bind fun status => ?_
    split
    · trivial
    · exact (commitRaw_clear hid text).bind fun _ =>
        (cacheValidators_clear _ _).bind fun _ => trivial
  · trivial

lemma fetchAndCommit_clear (hid : entry.id ≠ userRulesId) :
    (fetchAndCommit entry).All Access.Clear := by
  have hfetch : (fetchUnderLock entry).All Access.Clear := by
    refine ⟨trivial, fun _ => ⟨trivial, fun status => ⟨trivial, fun stored =>
      ⟨trivial, fun outcome => ?_⟩⟩⟩⟩
    match outcome with
    | .error _ => trivial
    | .ok .notModified => trivial
    | .ok (.body text validators) =>
      refine (clear_of_minor (listText_minor entry.id)).bind fun cached => ?_
      split
      · exact (cacheValidators_clear _ _).bind fun _ => trivial
      · exact ⟨trivial, fun _ => (commitChecked_clear hid _ _ _).bind fun _ =>
          ⟨trivial, fun _ => trivial⟩⟩
  exact ⟨trivial, fun _ => hfetch.bind fun _ => ⟨trivial, fun _ => trivial⟩⟩

/-- The refreshes stay away from the user rules. -/
def tidying (owns : Nat → Prop) (i : Nat) : Discipline Unit where
  Judges Q p _ := Tidy owns i (Q · ()) p
  Same _ _ := True
  Knows _ entry := entry.id ≠ userRulesId
  Open _ := True
  refl _ := trivial
  trans _ _ := trivial
  knows _ hk := hk
  opened _ _ := trivial
  ret _ h := Tidy.ret (h () trivial)
  minor hop h := Tidy.clear hop.clear fun _ _ b _ hs hrun =>
    h b () trivial fun entry hyields => hs entry (hyields.mem hrun)
  fetches _ hk h := (Tidy.of_all (fetchAndCommit_clear hk)).bind fun outcome _ =>
    h outcome () trivial (fun _ hother => hother) fun _ _ => trivial
  locks _ h := Tidy.clear (by trivial) fun _ _ _ _ _ _ => h () trivial
  compiles _ h := (Tidy.of_all compileAndSwap_clear).bind fun stats _ =>
    h stats () trivial fun _ => trivial
  unlocks _ h := Tidy.clear (by trivial) fun _ _ _ _ _ _ => h () trivial fun _ => trivial

lemma updateList_clear (id : Bytes) (patch : ListPatch) :
    (updateList id patch).All Access.Clear := by
  refine ⟨trivial, fun found => ?_⟩
  cases found with
  | none => trivial
  | some entry =>
    have hset : (setEnabled entry patch.enabled).All Access.Clear := by
      cases patch.enabled with
      | none => trivial
      | some enabled => exact ⟨trivial, fun _ => trivial⟩
    have hhours : (setHours entry patch.refreshHours).All Access.Clear := by
      cases patch.refreshHours with
      | none => trivial
      | some hours => exact ⟨trivial, fun _ => trivial⟩
    refine hset.bind fun changed => hhours.bind fun _ => Prog.All.bind ?_ fun compiled => ?_
    · split
      · exact recompile_clear.bind fun _ => trivial
      · trivial
    · split
      · exact (clear_of_minor (view_minor entry)).bind fun _ => trivial
      · trivial

lemma removeList_tidy (id : Bytes) : Tidy owns i (fun _ => True) (removeList id) := by
  refine Tidy.clear (by trivial) fun x s found t hs hrun => ?_
  cases hrun
  cases hfound : s.entries.find? (·.id == id) with
  | none => exact Tidy.ret trivial
  | some entry =>
    have hid : id ≠ userRulesId := by
      have heq : entry.id = id := by simpa using List.find?_some hfound
      exact heq ▸ hs entry (List.mem_of_find?_eq_some hfound)
    have hdrop : (dropList id).All Access.Clear := by
      refine ⟨trivial, fun removed => ?_⟩
      cases removed with
      | false => trivial
      | true =>
        exact ⟨trivial, fun _ => ⟨trivial, fun _ => ⟨hid, fun _ =>
          compileAndSwap_clear.bind fun _ => trivial⟩⟩⟩
    have hremove : (removeUnderLock id).All Access.Clear := by
      refine ⟨trivial, fun _ => ⟨hid, fun removed => ?_⟩⟩
      cases removed with
      | ok _ => exact hdrop
      | error _ => trivial
    exact Tidy.of_all ⟨trivial, fun _ => hremove.bind fun _ => ⟨trivial, fun _ => trivial⟩⟩

lemma setUserRules_modest (text : Bytes) : (setUserRules text).All Access.Modest := by
  have hcompile : compileAndSwap.All Access.Modest :=
    compileAndSwap_clear.mono fun _ hop => hop.modest
  have hcommit : (commitRaw userRulesId text).All Access.Modest := by
    refine ⟨trivial, fun written => ?_⟩
    cases written with
    | true | false => exact ⟨trivial, fun _ => trivial⟩
  refine ⟨trivial, fun _ => hcommit.bind fun _ => hcompile.bind fun stats => ?_⟩
  cases stats with
  | none => exact ⟨trivial, fun _ => trivial⟩
  | some stats => exact ⟨trivial, fun _ => ⟨trivial, fun _ => trivial⟩⟩

lemma removeOrphans_clear (hkeep : userRulesId ∈ keep)
    (files : List CacheFile) : (removeOrphans keep files).All Access.Clear := by
  induction files with
  | nil => trivial
  | cons file files ih =>
    cases file with
    | raw id =>
      rw [removeOrphans]
      split
      · next hid =>
        refine ⟨?_, fun _ => ih⟩
        rintro rfl
        simp [hkeep] at hid
      · exact ih
    | validators id =>
      rw [removeOrphans]
      split
      · exact ⟨trivial, fun _ => ih⟩
      · exact ih

lemma boot_clear : boot.All Access.Clear := by
  refine ⟨trivial, fun _ => compileAndSwap_clear.bind fun stats => ?_⟩
  cases stats with
  | none => exact ⟨trivial, fun _ => trivial⟩
  | some stats =>
    have hseed : ∀ wallNow now entries, (seedClocks wallNow now entries).All Access.Clear :=
      fun wallNow now entries => (seedClocks_seeding wallNow now entries).mono
        fun op h => by cases op <;> trivial
    refine ⟨trivial, fun wallNow => ⟨trivial, fun now => ⟨trivial, fun seeded => ?_⟩⟩⟩
    refine (hseed wallNow now seeded).bind fun _ => ⟨trivial, fun kept => ⟨trivial, fun files =>
      (removeOrphans_clear List.mem_cons_self files).bind fun _ =>
        ⟨trivial, fun _ => ⟨trivial, fun _ => trivial⟩⟩⟩⟩

/-- **What an operation does to the user rules.** -/
theorem Operation.tidy {op : Operation} (hop : op.StaysApart) (howns : op.SetsUserRules → owns i) :
    Tidy owns i (fun _ => True) op.program := by
  cases op with
  | refreshList id => exact ((tidying owns i).refreshList_ends (c := ()) trivial trivial id).bind fun _ _ => Tidy.ret trivial
  | refreshAll => exact ((tidying owns i).refreshAll_ends (c := ()) trivial trivial).bind fun _ _ => Tidy.ret trivial
  | refreshDueLists => exact ((tidying owns i).refreshDueLists_ends (c := ()) trivial trivial).bind fun _ _ => Tidy.ret trivial
  | updateList id patch => exact Tidy.of_all ((updateList_clear id patch).bind fun _ => trivial)
  | removeList id => exact (removeList_tidy id).bind fun _ _ => Tidy.ret trivial
  | setUserRules text =>
    exact Tidy.of_modest (howns trivial) ((setUserRules_modest text).bind fun _ => trivial)
  | setPolicies policies =>
    have hset : (Lifecycle.setPolicies policies).All Access.Clear :=
      ⟨trivial, fun _ => recompile_clear.bind fun _ => trivial⟩
    exact Tidy.of_all (hset.bind fun _ => trivial)
  | addList config =>
    have hadd : (Lifecycle.addList config).All Access.Clear := by
      refine ⟨hop, fun added => ?_⟩
      cases added with
      | none => trivial
      | some _ => exact ⟨trivial, fun _ => trivial⟩
    exact Tidy.of_all (hadd.bind fun _ => trivial)
  | boot => exact Tidy.of_all (boot_clear.bind fun _ => trivial)

/-- **List operations never touch the user's own rules**, when no list is or gets
registered under their id: in any interleaving, only steps of the user-rules
endpoint change the stored text. -/
theorem user_rules_untouched {s : Manager} {ops : List Operation}
    {labels : List (Label Access Manager)} {c : Pool Access Manager Reply} (hs : Apart s)
    (hops : ∀ op ∈ ops, op.StaysApart) (hrun : Pool.Run machine (together s ops) labels c) :
    ∀ l ∈ labels, (∀ op, ops[l.thread]? = some op → ¬ op.SetsUserRules) →
      Untouched l.before l.after := by
  have hholds : ∀ i p, (together s ops).threads[i]? = some p →
      Holds machine Apart (fun _ _ _ => True)
        (Respects fun i => ∃ op, ops[i]? = some op ∧ op.SetsUserRules) i (fun _ _ => True) p s := by
    intro i p hp
    rw [together, List.getElem?_map] at hp
    obtain ⟨op, hop, rfl⟩ := Option.map_eq_some_iff.mp hp
    exact Operation.tidy (hops op (List.mem_of_getElem? hop)) (fun hsets => ⟨op, hop, hsets⟩) s
  obtain ⟨-, hlabels, -⟩ := hrun.holds stable_any (fun _ _ _ _ _ _ _ => trivial) hs hholds
  intro l hl hother
  rcases (hlabels l hl).2 with ⟨op, hop, hsets⟩ | huntouched
  · exact absurd hsets (hother op hop)
  · exact huntouched

/-- A refresh that stores a copy, beside the user rules. -/
theorem user_rules_untouched_one_list :
    ∃ labels c, Pool.Run machine (together oneList [.refreshList (lit "ads")]) labels c ∧
      c.state.raw (lit "ads") = some (lit "||ads.example^") ∧
        ∀ l ∈ labels, Untouched l.before l.after := by
  have hs : Apart oneList := by
    intro entry hentry
    cases List.mem_singleton.mp hentry
    decide
  refine Pool.exists_run
    (turns [(0, 6)] ++ [(0, answered (lit "||ads.example^"))] ++ turns [(0, 6)])
    (fun _ c => c.state.raw (lit "ads") = some (lit "||ads.example^")) (by decide +kernel)
    fun labels c hrun hstored => ⟨hstored, fun l hl => ?_⟩
  refine user_rules_untouched hs (by simp [Operation.StaysApart]) hrun l hl fun op hop => ?_
  cases List.mem_singleton.mp (List.mem_of_getElem? hop)
  exact id

end Operations

end FastAdHunter.Rules.Lifecycle
