import Caret.Proofs.Simulation

/-!
# `Caret.Proofs.Traversal`: the result of a traversal

A traversal without recovery ends with what a search through the grammar comes to
(`Traversal.run_of_enumerates`). Its options decide which calls are answered without entering the
rule: at the caret calls of rules that are reported as a whole, and all calls if there is a table of
first tokens, which also answers calls in front of a token that a rule cannot start with. This is
`Options.answers`.

Without a table, the nullability of reported rules is found by traversals of its own. They end as
well, so that with enough steps allowed their answers do not change any more
(`Setting.ofOptions_ends`).
-/

set_option autoImplicit false

namespace Caret

/-! ### Results -/

/-- The result of a traversal that comes to these outcomes, without recoveries. -/
def Traversal.ofOutcomes (os : List Outcome) : Traversal :=
  ⟨Outcome.candidates os, Outcome.reachesEnd os, .empty⟩

/-- A result that is changed afterwards. -/
theorem Ends.map {α β : Type} {f : Nat → Except Halt α} {a : α} (h : Ends f a) (g : α → β) :
    Ends (fun limit => (f limit).map g) (g a) := by
  obtain ⟨bound, hbound⟩ := h
  refine ⟨bound, fun limit hlimit => ?_⟩
  show (f limit).map g = _
  rw [hbound limit hlimit]
  rfl

/-- What is the same from some limit on has the same result. -/
theorem Ends.congr {α : Type} {f g : Nat → Except Halt α} {a : α} (h : Ends f a) (bound : Nat)
    (heq : ∀ limit, bound ≤ limit → f limit = g limit) : Ends g a := by
  obtain ⟨bound', hbound⟩ := h
  refine ⟨max bound bound', fun limit hlimit => ?_⟩
  rw [← heq limit (by omega)]
  exact hbound limit (by omega)

/-- There is one result. -/
theorem Ends.unique {α : Type} {f : Nat → Except Halt α} {a b : α} (ha : Ends f a)
    (hb : Ends f b) : a = b := by
  obtain ⟨bound, ha⟩ := ha
  obtain ⟨bound', hb⟩ := hb
  have h := (ha (max bound bound') (by omega)).symm.trans (hb (max bound bound') (by omega))
  exact Except.ok.inj h

/-- What is put out behind the first rule: the end is reached if all tokens are read. -/
def atEnd (u : List TokenType) : List Effect := if u = [] then [.finish] else []

/-- The candidates of the outputs are those of the outcomes, within the first rule. -/
theorem filterMap_candidate_emitted (r : RuleIndex) (os : List Outcome) :
    (emitted [⟨r, none, 0⟩] atEnd os).filterMap Effect.candidate? =
      Outcome.candidates (os.map (Outcome.within r)) := by
  induction os with
  | nil => rfl
  | cons o os ih =>
      -- An outcome at the end of the rule is no candidate.
      have hsplit : emitted [⟨r, none, 0⟩] atEnd (o :: os) = _ := emitted_append _ _ [o] os
      rw [hsplit, List.filterMap_append, ih]
      cases o with
      | report id chain => rfl
      | done u =>
          rw [emitted_done, atEnd]
          split
          · rfl
          · rfl

/-- The outputs say that the end is reached if an outcome does. -/
theorem contains_finish_emitted (r : RuleIndex) (os : List Outcome) :
    (emitted [⟨r, none, 0⟩] atEnd os).contains .finish =
      Outcome.reachesEnd (os.map (Outcome.within r)) := by
  rw [Bool.eq_iff_iff, List.contains_iff_mem, Outcome.reachesEnd, List.contains_iff_mem,
    Outcome.done_mem_map_within, emitted, List.mem_flatMap]
  constructor
  · rintro ⟨o, ho, hmem⟩
    cases o with
    | report id chain => simp at hmem
    | done u =>
        have hmem' : .finish ∈ atEnd u := hmem
        rw [atEnd] at hmem'
        split at hmem'
        · rename_i hu
          rw [← hu]
          exact ho
        · cases hmem'
  · intro hdone
    exact ⟨_, hdone, by simp [atEnd]⟩

section

variable {rules : List (Rule Label RuleIndex)} {alphabet : Universe} {s : Setting}
  {w : List TokenType} {answers : Answers} {os : List Outcome} {r : RuleIndex}

/-- At the stop state of the first rule. -/
theorem Settles.atEnd {u : List TokenType} {stop : Nat} (hstream : s.stream = ⟨w.toArray⟩)
    (ht : s.network.Tidy) (hstop : s.network.stop? r = some stop) (hu : u <:+ w) :
    Settles s [spot w u stop [⟨r, none, 0⟩]] (atEnd u) := by
  obtain ⟨state, hstate, hkind⟩ := ht.stop_kind r stop hstop
  have hexplore := explore_stop (p := spot w u stop [⟨r, none, 0⟩]) hstate hkind (by
    intro c callers hcalls
    cases hcalls
    rfl)
  have hindex : (spot w u stop [⟨r, none, 0⟩]).index = s.stream.caret ↔ u = [] := by
    rw [hstream]
    exact caret_iff_of_suffix hu
  simp only [hindex] at hexplore
  rw [Caret.atEnd]
  split at hexplore
  · rename_i hnil
    rw [if_pos hnil]
    exact Settles.single hexplore (by simp [Effect.isGuard]) .nil
  · rename_i hnil
    rw [if_neg hnil]
    exact Settles.single hexplore (by simp) .nil

/-- A traversal ends with what is put out from the start of its rule on. -/
theorem Traversal.run_of_settles {start : Nat} {outs : List Effect} (ht : s.network.Tidy)
    (hstart : s.network.start? r = some start)
    (h : Settles s [spot w w start [⟨r, none, 0⟩]] outs) :
    Ends (fun limit => Traversal.run s limit r)
      ⟨outs.filterMap Effect.candidate?, outs.contains .finish, .empty⟩ := by
  have hspot : spot w w start [⟨r, none, 0⟩] = ⟨start, 0, [], [⟨r, none, 0⟩], 0⟩ := by
    rw [spot, Nat.sub_self]
  -- The machine starts with this one position, which has passed no state.
  have hrun := h.run ht [spot w w start [⟨r, none, 0⟩]] rfl
    (fun p hp => by
      rw [List.mem_singleton.mp hp]
      refine .of_visited_eq_nil rfl fun c hc f hf => ?_
      rw [List.mem_singleton.mp hc] at hf
      cases hf)
    (Machine.start r start) (by rw [hspot]; rfl)
  have hresult := hrun.map Traversal.ofMachine
  have hofMachine : Traversal.ofMachine (((Machine.start r start).after outs).withPending []) =
      ⟨outs.filterMap Effect.candidate?, outs.contains .finish, .empty⟩ := by
    simp [Traversal.ofMachine, Machine.after, Machine.withPending, Machine.start]
  rw [hofMachine] at hresult
  refine hresult.congr 0 fun limit _ => ?_
  simp only [Traversal.run, hstart]

/-- A traversal ends with what the search through the body of its rule comes to. -/
theorem Traversal.run_of_enumerates (hs : s.Follows w answers)
    (hn : s.network.Realizes rules alphabet) (hr : r < rules.length)
    (h : Enumerates (.ofRules rules alphabet) answers (.body r 0) w os) :
    Ends (fun limit => Traversal.run s limit r)
      (.ofOutcomes (os.map (Outcome.within r))) := by
  obtain ⟨start, exit, stop, hstart, hstop, -⟩ :=
    hn.wired r _ (List.getElem?_eq_getElem hr)
  have hsettles := h.simulates hs hn (List.suffix_refl w) none [] atEnd start stop hstart hstop
    fun u hu => .atEnd hs.stream_eq hn.tidy hstop (h.suffix hu)
  rw [Traversal.ofOutcomes, ← filterMap_candidate_emitted, ← contains_finish_emitted]
  exact Traversal.run_of_settles hn.tidy hstart hsettles

end

/-! ### Options -/

/-- What the table says a rule can start with, cut at rules that are reported as a whole. -/
def FirstTokens.starts (f : FirstTokens) (reported : List RuleIndex) (r : RuleIndex) :
    List (SuggestionId × Chain) :=
  match f.entry? r with
  | none => []
  | some x => x.candidates.flatMap fun c => c.contexts.map (cut reported c.id)

/-- What the table inserts for a rule is what it holds for it, below the open rules. -/
theorem FirstTokens.splice_eq (f : FirstTokens) (reported : List RuleIndex) (outer : Chain)
    (r : RuleIndex) : f.splice reported outer r =
      (f.starts reported r).map fun y => ⟨y.1, [outer ++ y.2]⟩ := by
  cases hentry : f.entry? r with
  | none => simp [splice, starts, hentry]
  | some x => simp [splice, starts, hentry, List.map_flatMap, Function.comp_def]

/-- Whether a rule counts as nullable: by the table, if there is one. -/
def Options.isNullable (options : Options) (nullable : RuleIndex → Bool) (r : RuleIndex) : Bool :=
  match options.firstTokens with
  | some f => f.isNullable r
  | .none => nullable r

/-- How calls are answered: at the caret by the rules that are reported as a whole and by the table,
and in front of a token by the table if it rules the call out. -/
def Options.answers (options : Options) (nullable : RuleIndex → Bool) : Answers
  | [], r =>
      if r ∈ options.reported then some ⟨[(.rule r, [])], options.isNullable nullable r⟩
      else options.firstTokens.map fun f => ⟨f.starts options.reported r, f.isNullable r⟩
  | t :: _, r =>
      options.firstTokens.bind fun f =>
        if f.mayStartWith r t then Option.none else some ⟨[], false⟩

/-- Without options no call is answered. -/
theorem Options.answers_none (nullable : RuleIndex → Bool) :
    Options.none.answers nullable = noAnswers := by
  funext v r
  cases v with
  | nil => simp [answers, Options.none, noAnswers]
  | cons t v => rfl

/-- Without recovery a setting answers calls by its options. -/
theorem Setting.follows_answers {s : Setting} {w : List TokenType} {nullable : RuleIndex → Bool}
    (hstream : s.stream = ⟨w.toArray⟩) (hrecovery : s.options.recovery = [])
    (hnullable : ∀ r, s.nullable r = .ok (s.options.isNullable nullable r)) :
    s.Follows w (s.options.answers nullable) := by
  have henter : ∀ p start r f level, s.enter p start r f level =
      [.visit (p.call start ⟨r, some f, level⟩)] := by
    intro p start r f level
    simp [Setting.enter, hrecovery]
  have hlook : ∀ v a calls, v <:+ w →
      s.stream.lookahead (spot w v a calls).index = some (.first v) := by
    intro v a calls hv
    rw [hstream]
    exact lookahead_of_suffix hv
  refine ⟨hstream, ?_, ?_⟩
  · -- A call without an answer enters the rule.
    intro v a calls start r f level hv hanswer
    have hlook := hlook v a calls hv
    cases v with
    | nil =>
        simp only [Options.answers] at hanswer
        split at hanswer
        · cases hanswer
        · rename_i hreported
          rw [Option.map_eq_none_iff] at hanswer
          simp only [Setting.call, hlook, Lookahead.first, hanswer, if_neg hreported, henter]
    | cons t v =>
        cases htable : s.options.firstTokens with
        | none => simp only [Setting.call, hlook, Lookahead.first, htable, henter]
        | some table =>
            simp only [Options.answers, htable, Option.bind_some] at hanswer
            split at hanswer
            · rename_i hmay
              simp only [Setting.call, hlook, Lookahead.first, htable, if_pos hmay, henter]
            · cases hanswer
  · -- A call with an answer leads to what the answer says.
    intro v a calls start r f level x hv hanswer
    have hlook := hlook v a calls hv
    have hchain : (spot w v a calls).chain = chainOf calls := rfl
    cases v with
    | nil =>
        simp only [Options.answers] at hanswer
        split at hanswer
        · rename_i hreported
          cases hanswer
          simp only [Setting.call, hlook, Lookahead.first, if_pos hreported, hnullable, hchain]
          simp [Except.map]
        · rename_i hreported
          obtain ⟨table, htable, rfl⟩ := Option.map_eq_some_iff.mp hanswer
          simp only [Setting.call, hlook, Lookahead.first, htable, if_neg hreported, hchain,
            FirstTokens.splice_eq, List.map_map, Function.comp_def]
    | cons t v =>
        obtain ⟨table, htable, hanswer⟩ := Option.bind_eq_some_iff.mp hanswer
        split at hanswer
        · cases hanswer
        · rename_i hmay
          cases hanswer
          simp only [Setting.call, hlook, Lookahead.first, htable, if_neg hmay]
          simp

/-! ### Well-formed grammars -/

section

variable {rules : List (Rule Label RuleIndex)} {alphabet : Universe} {n : Network}

/-- In a well-formed grammar every search through a rule comes to outcomes. -/
theorem WellFormed.exists_enumerates_rule (h : WellFormed rules alphabet) {answers : Answers}
    (hfair : answers.Fair (knownNullable rules)) {r : RuleIndex} (hr : r < rules.length)
    (level : Int) (v : List TokenType) :
    ∃ os, Enumerates (.ofRules rules alphabet) answers (.rule r level) v os :=
  ((h.allGrounded v).rule r level hr).exists_enumerates hfair

/-- And so does a search through the body of a rule. -/
theorem WellFormed.exists_enumerates_body (h : WellFormed rules alphabet) {answers : Answers}
    (hfair : answers.Fair (knownNullable rules)) {r : RuleIndex} (hr : r < rules.length)
    (v : List TokenType) :
    ∃ os, Enumerates (.ofRules rules alphabet) answers (.body r 0) v os := by
  have hgrounded := (h.allGrounded v).rule r 0 hr
  cases hgrounded with
  | rule hbody _ => exact hbody.exists_enumerates hfair

/-- A rule that derives the empty text is nullable. -/
theorem WellFormed.nullable_of_yields (h : WellFormed rules alphabet) {r : RuleIndex}
    (hr : r < rules.length) (hyields : Yields (.ofRules rules alphabet) (.rule r 0) []) :
    knownNullable rules r = true := by
  obtain ⟨os, hos⟩ := h.exists_enumerates_rule (fair_noAnswers (knownNullable rules)) hr 0 []
  exact hos.nullable_of_done (fair_noAnswers _) ((hos.reads []).mpr ⟨[], rfl, hyields⟩)

/-- The traversal of a rule in front of nothing but the caret. -/
theorem Traversal.atStart_of_enumerates (hn : n.Realizes rules alphabet) {r : RuleIndex}
    (hr : r < rules.length) {os : List Outcome}
    (hos : Enumerates (.ofRules rules alphabet) noAnswers (.body r 0) [] os) :
    Ends (fun limit => Traversal.atStart n limit r)
      (.ofOutcomes (os.map (Outcome.within r))) := by
  have hfollows : Setting.Follows ⟨n, .caretOnly, .none, fun _ => .ok false⟩ []
      (Options.none.answers fun _ => false) := Setting.follows_answers rfl rfl fun _ => rfl
  rw [Options.answers_none] at hfollows
  exact Traversal.run_of_enumerates hfollows hn hr hos

/-- What holds of finitely many numbers from some limit on holds of all of them from one limit
on. -/
theorem exists_bound_of_lt {P : Nat → Nat → Prop} (k : Nat)
    (h : ∀ r, r < k → ∃ bound, ∀ limit, bound ≤ limit → P r limit) :
    ∃ bound, ∀ r, r < k → ∀ limit, bound ≤ limit → P r limit := by
  induction k with
  | zero => exact ⟨0, by simp⟩
  | succ k ih =>
      obtain ⟨bound, hbound⟩ := ih fun r hr => h r (by omega)
      obtain ⟨last, hlast⟩ := h k (by omega)
      refine ⟨max bound last, fun r hr limit hlimit => ?_⟩
      by_cases hrk : r = k
      · rw [hrk]
        exact hlast limit (by omega)
      · exact hbound r (by omega) limit (by omega)

/-- The setting of a traversal once the nullability of all rules is known. -/
def Setting.settled (n : Network) (stream : TokenStream) (options : Options)
    (nullable : RuleIndex → Bool) : Setting where
  network := n
  stream
  options
  nullable r := .ok (options.isNullable nullable r)

/-- With enough steps allowed, a rule counts as nullable if it derives the empty text. -/
theorem Setting.ofOptions_ends (h : WellFormed rules alphabet) (hn : n.Realizes rules alphabet) :
    ∃ nullable : RuleIndex → Bool,
      (∀ r, nullable r = true ↔
        r < rules.length ∧ Yields (.ofRules rules alphabet) (.rule r 0) []) ∧
      ∃ bound, ∀ limit, bound ≤ limit → ∀ stream options,
        Setting.ofOptions n stream options limit = .settled n stream options nullable := by
  have hends : ∀ r, r < rules.length → ∃ b : Bool,
      (b = true ↔ Yields (.ofRules rules alphabet) (.rule r 0) []) ∧
      Ends (fun limit => (Traversal.atStart n limit r).map Traversal.reachedEnd) b := by
    intro r hr
    obtain ⟨os, hos⟩ := h.exists_enumerates_body (fair_noAnswers _) hr []
    refine ⟨_, ?_, (Traversal.atStart_of_enumerates hn hr hos).map Traversal.reachedEnd⟩
    exact (Enumerates.entered rfl hos).reachesEnd_iff
  -- There are finitely many rules, so one bound is enough for all of them.
  choose! b hb hends using hends
  obtain ⟨bound, hbound⟩ := exists_bound_of_lt rules.length hends
  refine ⟨fun r => decide (r < rules.length) && b r, ?_, bound, ?_⟩
  · intro r
    rw [Bool.and_eq_true, decide_eq_true_eq]
    exact and_congr_right (hb r)
  · intro limit hlimit stream options
    rw [Setting.ofOptions, Setting.settled, Setting.mk.injEq]
    refine ⟨rfl, rfl, rfl, ?_⟩
    cases htable : options.firstTokens with
    | some f => simp [Options.isNullable, htable]
    | none =>
        -- A rule that does not exist has no entry, and counts as not nullable.
        funext r
        rw [Options.isNullable, htable]
        by_cases hr : r < rules.length
        · have hget : (nullabilities n limit)[r]? = some (Thunk.mk fun _ =>
              (Traversal.atStart n limit r).map Traversal.reachedEnd) := by
            simp [nullabilities, Network.ruleCount, hn.count_eq, hr]
          simp only [hget, hr, decide_true, Bool.true_and]
          exact hbound r hr limit hlimit
        · have hget : (nullabilities n limit)[r]? = none := by
            simp [nullabilities, Network.ruleCount, hn.count_eq, hr]
          simp [hget, hr]

/-- A traversal without recovery ends with what the search comes to. -/
theorem traverse_of_enumerates (hn : n.Realizes rules alphabet) {nullable : RuleIndex → Bool}
    {bound : Nat} {options : Options} {w : List TokenType}
    (hsettled : ∀ limit, bound ≤ limit → Setting.ofOptions n ⟨w.toArray⟩ options limit =
      .settled n ⟨w.toArray⟩ options nullable)
    (hrecovery : options.recovery = []) {r : RuleIndex} (hr : r < rules.length)
    {os : List Outcome}
    (hos : Enumerates (.ofRules rules alphabet) (options.answers nullable) (.body r 0) w os) :
    Ends (fun limit => traverse n ⟨w.toArray⟩ options limit r)
      (.ofOutcomes (os.map (Outcome.within r))) := by
  have hfollows : (Setting.settled n ⟨w.toArray⟩ options nullable).Follows w
      (options.answers nullable) := Setting.follows_answers rfl hrecovery fun _ => rfl
  have hrun := Traversal.run_of_enumerates hfollows hn hr hos
  refine hrun.congr bound fun limit hlimit => ?_
  rw [traverse, hsettled limit hlimit]

end

end Caret
