import Mathlib
import Caret.Proofs.Derivation

/-!
# `Caret.Proofs.Enumeration`: trying the ways through a grammar one after the other

`Enumerates d answers x rest outcomes` describes a backtracking search through the phrase `x`, with
the tokens `rest` still to be read. The search tries the ways through the phrase from left to right
and lists what comes of them: at the caret, where no token is left, every token type that a terminal
matches, with the rules that are open; and every time the phrase is read to its end, the tokens that
are left then. Alternatives are tried in order. A greedy part is tried before it is passed over, the
others are passed over first. Operators are tried in order, as far as the level admits them, and
then the operators are left.

A call can be answered without entering the rule, if `answers` says so. `noAnswers` never does.

* `Enumerates.related_by`: a relation between the outcomes of calls carries over to all phrases, if
  it is kept where outcomes are put together (`RelatingBy`). `Enumerates.related` is the case of a
  relation that does not depend on the phrase (`Relating`).
* `Enumerates.deterministic`: a search has one list of outcomes.
* `Enumerates.reads` and `Enumerates.offers`: without answers, the outcomes are the derivations.
-/

set_option autoImplicit false

namespace Caret

/-- What comes of trying a phrase: something can come next, inside the rules of a chain, or the
phrase is read and some tokens are left. -/
inductive Outcome where
  | report (id : SuggestionId) (chain : Chain)
  | done (rest : List TokenType)
deriving DecidableEq

namespace Outcome

/-- The outcome as it is seen from outside a rule. -/
def within (r : RuleIndex) : Outcome → Outcome
  | .report id chain => .report id (r :: chain)
  | .done rest => .done rest

/-- The outcomes of one phrase and then another: each time the first is read to its end, the second
is tried on the tokens that are left. -/
def andThen (outcomes : List Outcome) (f : List TokenType → List Outcome) : List Outcome :=
  outcomes.flatMap fun
    | .report id chain => [.report id chain]
    | .done rest => f rest

/-- The outcomes of two ways, the preferred one first. -/
def prefer (first : Bool) (inside outside : List Outcome) : List Outcome :=
  if first then inside ++ outside else outside ++ inside

/-- The outcomes of a terminal. At the caret all its token types can come next. -/
def ofSymbols (ts : List TokenType) : List TokenType → List Outcome
  | [] => ts.map fun t => .report (.token t) []
  | t :: rest => if t ∈ ts then [.done rest] else []

/-- What outcomes suggest, in order and with one chain each. -/
def candidates (outcomes : List Outcome) : List Candidate :=
  outcomes.filterMap fun
    | .report id chain => some ⟨id, [chain]⟩
    | .done _ => none

/-- Whether one of the outcomes is that everything is read. -/
def reachesEnd (outcomes : List Outcome) : Bool := outcomes.contains (.done [])

end Outcome

/-- What is known of a call without entering the rule: what can come next, and whether the rule can
be passed without reading a token. -/
structure Answer where
  reports : List (SuggestionId × Chain)
  passes : Bool

/-- The outcomes of a call that is answered. -/
def Answer.outcomes (a : Answer) (rest : List TokenType) : List Outcome :=
  a.reports.map (fun x => .report x.1 x.2) ++ if a.passes then [.done rest] else []

/-- The answers to calls of a rule in front of some tokens. -/
abbrev Answers := List TokenType → RuleIndex → Option Answer

/-- No call is answered, and every rule that is called is entered. -/
def noAnswers : Answers := fun _ _ => none

section

open Outcome

variable {τ ρ : Type} (d : Definitions τ ρ) (answers : Answers)

/-- Trying the ways through the phrase in front of the tokens has these outcomes, in order. -/
inductive Enumerates : Phrase τ ρ → List TokenType → List Outcome → Prop where
  | terminal {a : τ} {rest : List TokenType} :
      Enumerates (.expr (.terminal a)) rest (ofSymbols (d.symbols a) rest)
  | ref {x : ρ} {r : RuleIndex} {rest : List TokenType} {os : List Outcome} :
      d.callee x = some r → Enumerates (.rule r 0) rest os → Enumerates (.expr (.rule x)) rest os
  | empty {rest : List TokenType} : Enumerates (.expr .empty) rest [.done rest]
  | seqNil {rest : List TokenType} : Enumerates (.expr (.seq [])) rest [.done rest]
  | seqCons {e : Expr τ ρ} {es : List (Expr τ ρ)} {rest : List TokenType} {os : List Outcome}
      {f : List TokenType → List Outcome} :
      Enumerates (.expr e) rest os → (∀ u, .done u ∈ os → Enumerates (.expr (.seq es)) u (f u)) →
        Enumerates (.expr (.seq (e :: es))) rest (andThen os f)
  | altNil {rest : List TokenType} : Enumerates (.expr (.alt [])) rest []
  | altCons {e : Expr τ ρ} {es : List (Expr τ ρ)} {rest : List TokenType} {os os' : List Outcome} :
      Enumerates (.expr e) rest os → Enumerates (.expr (.alt es)) rest os' →
        Enumerates (.expr (.alt (e :: es))) rest (os ++ os')
  | optional {e : Expr τ ρ} {greedy : Bool} {rest : List TokenType} {os : List Outcome} :
      Enumerates (.expr e) rest os →
        Enumerates (.expr (.optional e greedy)) rest (prefer greedy os [.done rest])
  | star {e : Expr τ ρ} {greedy : Bool} {rest : List TokenType} {os : List Outcome}
      {f : List TokenType → List Outcome} :
      Enumerates (.expr e) rest os →
        (∀ u, .done u ∈ os → Enumerates (.expr (.star e greedy)) u (f u)) →
          Enumerates (.expr (.star e greedy)) rest (prefer greedy (andThen os f) [.done rest])
  | plus {e : Expr τ ρ} {greedy : Bool} {rest : List TokenType} {os : List Outcome}
      {f : List TokenType → List Outcome} :
      Enumerates (.expr e) rest os →
        (∀ u, .done u ∈ os → Enumerates (.expr (.star e greedy)) u (f u)) →
          Enumerates (.expr (.plus e greedy)) rest (andThen os f)
  | answered {r : RuleIndex} {level : Int} {rest : List TokenType} {a : Answer} :
      answers rest r = some a → Enumerates (.rule r level) rest (a.outcomes rest)
  | entered {r : RuleIndex} {level : Int} {rest : List TokenType} {os : List Outcome} :
      answers rest r = none → Enumerates (.body r level) rest os →
        Enumerates (.rule r level) rest (os.map (within r))
  | plain {r : RuleIndex} {level : Int} {e : Expr τ ρ} {rest : List TokenType}
      {os : List Outcome} :
      d.body r = some (.plain e) → Enumerates (.expr e) rest os →
        Enumerates (.body r level) rest os
  | precedence {r : RuleIndex} {level : Int} {primaries operators : List (Expr τ ρ)}
      {rest : List TokenType} {os : List Outcome} {f : List TokenType → List Outcome} :
      d.body r = some (.precedence primaries operators) →
        Enumerates (.expr (.alt primaries)) rest os →
          (∀ u, .done u ∈ os → Enumerates (.loop r level 0) u (f u)) →
            Enumerates (.body r level) rest (andThen os f)
  | loopEnd {r : RuleIndex} {level : Int} {next : Nat} {primaries operators : List (Expr τ ρ)}
      {rest : List TokenType} :
      d.body r = some (.precedence primaries operators) → operators.length ≤ next →
        Enumerates (.loop r level next) rest [.done rest]
  | loopSkip {r : RuleIndex} {level : Int} {next : Nat} {primaries operators : List (Expr τ ρ)}
      {rest : List TokenType} {os : List Outcome} :
      d.body r = some (.precedence primaries operators) → next < operators.length →
        operators.length - next < level → Enumerates (.loop r level (next + 1)) rest os →
          Enumerates (.loop r level next) rest os
  | loopMore {r : RuleIndex} {level : Int} {next : Nat} {primaries operators : List (Expr τ ρ)}
      {e : Expr τ ρ} {rest : List TokenType} {os os' : List Outcome}
      {f g : List TokenType → List Outcome} :
      d.body r = some (.precedence primaries operators) → operators[next]? = some e →
        level ≤ operators.length - next → Enumerates (.expr e) rest os →
          (∀ u, .done u ∈ os →
            Enumerates (.rule r (operators.length - next + 1)) u (f u)) →
          (∀ u, .done u ∈ andThen os f → Enumerates (.loop r level 0) u (g u)) →
            Enumerates (.loop r level (next + 1)) rest os' →
              Enumerates (.loop r level next) rest (andThen (andThen os f) g ++ os')

end

/-! ### Combining outcomes -/

namespace Outcome

variable {os : List Outcome} {f g : List TokenType → List Outcome}

/-- The second phrase is read where the first one was read before. -/
theorem done_mem_andThen {u : List TokenType} :
    .done u ∈ andThen os f ↔ ∃ v, .done v ∈ os ∧ .done u ∈ f v := by
  simp only [andThen, List.mem_flatMap]
  constructor
  · rintro ⟨o, ho, hu⟩
    cases o with
    | report id chain => simp at hu
    | done v => exact ⟨v, ho, hu⟩
  · rintro ⟨v, hv, hu⟩
    exact ⟨.done v, hv, hu⟩

/-- What can come next is reported by the first phrase, or by the second where the first is read. -/
theorem report_mem_andThen {id : SuggestionId} {chain : Chain} :
    .report id chain ∈ andThen os f ↔
      .report id chain ∈ os ∨ ∃ v, .done v ∈ os ∧ .report id chain ∈ f v := by
  simp only [andThen, List.mem_flatMap]
  constructor
  · rintro ⟨o, ho, hr⟩
    cases o with
    | report id' chain' =>
        rw [List.mem_singleton] at hr
        exact Or.inl (hr ▸ ho)
    | done v => exact Or.inr ⟨v, ho, hr⟩
  · rintro (hr | ⟨v, hv, hr⟩)
    · exact ⟨_, hr, by simp⟩
    · exact ⟨.done v, hv, hr⟩

/-- The outcomes of two phrases: all of the first but its ends, and what comes of the second at
these ends. -/
theorem mem_andThen {o : Outcome} : o ∈ andThen os f ↔
    (o ∈ os ∧ ∀ u, o ≠ .done u) ∨ ∃ u, .done u ∈ os ∧ o ∈ f u := by
  cases o with
  | report id chain => simp [report_mem_andThen]
  | done u => simp [done_mem_andThen]

/-- Preference changes the order of outcomes only. -/
@[simp] theorem mem_prefer {first : Bool} {inside outside : List Outcome} {o : Outcome} :
    o ∈ prefer first inside outside ↔ o ∈ inside ∨ o ∈ outside := by
  cases first with
  | true => simp [prefer]
  | false => simp [prefer, or_comm]

/-- Leaving a rule does not change which tokens are left. -/
@[simp] theorem done_mem_map_within {r : RuleIndex} {u : List TokenType} :
    .done u ∈ os.map (within r) ↔ .done u ∈ os := by
  rw [List.mem_map]
  constructor
  · rintro ⟨o, ho, hu⟩
    cases o with
    | report id chain => cases hu
    | done v =>
        cases hu
        exact ho
  · exact fun hu => ⟨_, hu, rfl⟩

/-- What is reported inside a rule is reported with this rule in front of its chain. -/
@[simp] theorem report_mem_map_within {r : RuleIndex} {id : SuggestionId} {chain : Chain} :
    .report id chain ∈ os.map (within r) ↔ ∃ c, chain = r :: c ∧ .report id c ∈ os := by
  rw [List.mem_map]
  constructor
  · rintro ⟨o, ho, hr⟩
    cases o with
    | report id' c =>
        cases hr
        exact ⟨c, rfl, ho⟩
    | done v => cases hr
  · rintro ⟨c, rfl, hr⟩
    exact ⟨_, hr, rfl⟩

/-- Only what comes after the ends that are reached counts. -/
theorem andThen_congr (h : ∀ u, .done u ∈ os → f u = g u) : andThen os f = andThen os g := by
  refine List.flatMap_congr fun o ho => ?_
  cases o with
  | report id chain => rfl
  | done u => exact h u ho

/-- Ways of the first phrase can be continued one by one. -/
theorem andThen_append (os' : List Outcome) :
    andThen (os ++ os') f = andThen os f ++ andThen os' f := by
  simp [andThen, List.flatMap_append]

end Outcome

/-- An answer that lets the rule be passed leaves all tokens. -/
theorem Answer.done_mem_outcomes {a : Answer} {rest u : List TokenType} :
    .done u ∈ a.outcomes rest ↔ a.passes = true ∧ u = rest := by
  simp only [Answer.outcomes, List.mem_append, List.mem_map]
  cases a.passes with
  | true => simp
  | false => simp

/-- An answer reports what it lists, whatever tokens there are. -/
theorem Answer.report_mem_outcomes {a : Answer} {rest : List TokenType} {id : SuggestionId}
    {chain : Chain} : .report id chain ∈ a.outcomes rest ↔ (id, chain) ∈ a.reports := by
  simp only [Answer.outcomes, List.mem_append, List.mem_map, Outcome.report.injEq]
  cases a.passes with
  | true => simp [Prod.exists]
  | false => simp [Prod.exists]

/-! ### Relations between outcomes -/

section

open Outcome

/-- A relation between outcomes that is kept when phrases are put together. -/
structure Relating (R : List Outcome → List Outcome → Prop) : Prop where
  done_iff : ∀ {os os' : List Outcome} {u : List TokenType}, R os os' →
    (.done u ∈ os ↔ .done u ∈ os')
  done : ∀ u, R [.done u] [.done u]
  symbols : ∀ ts v, R (ofSymbols ts v) (ofSymbols ts v)
  append : ∀ {os os' ps ps' : List Outcome}, R os os' → R ps ps' → R (os ++ ps) (os' ++ ps')
  andThen : ∀ {os os' : List Outcome} {f f' : List TokenType → List Outcome}, R os os' →
    (∀ u, .done u ∈ os → R (f u) (f' u)) → R (andThen os f) (andThen os' f')

/-- A relation between the outcomes of a phrase that is kept when phrases are put together. It may
depend on where the phrase stands: outcomes of an expression are related like those of any phrase,
but outcomes of a rule and its operators may be related only as parts of that rule. -/
structure RelatingBy {τ ρ : Type} (d : Definitions τ ρ) (answers : Answers)
    (R : Phrase τ ρ → List Outcome → List Outcome → Prop) : Prop where
  done_iff : ∀ {x : Phrase τ ρ} {os os' : List Outcome} {u : List TokenType}, R x os os' →
    (.done u ∈ os ↔ .done u ∈ os')
  done : ∀ x u, R x [.done u] [.done u]
  symbols : ∀ e ts v, R (.expr e) (ofSymbols ts v) (ofSymbols ts v)
  append : ∀ {x : Phrase τ ρ} {os os' ps ps' : List Outcome}, R x os os' → R x ps ps' →
    R x (os ++ ps) (os' ++ ps')
  andThen : ∀ {e : Expr τ ρ} {x : Phrase τ ρ} {os os' : List Outcome}
    {f f' : List TokenType → List Outcome}, R (.expr e) os os' →
      (∀ u, .done u ∈ os → R x (f u) (f' u)) → R x (andThen os f) (andThen os' f')
  expr : ∀ {e : Expr τ ρ} {os os' : List Outcome} (x : Phrase τ ρ), R (.expr e) os os' → R x os os'
  ref : ∀ {r : RuleIndex} {os os' : List Outcome} (e : Expr τ ρ), R (.rule r 0) os os' →
    R (.expr e) os os'
  loop : ∀ {r : RuleIndex} {level : Int} {next : Nat} {os os' : List Outcome} (next' : Nat),
    R (.loop r level next) os os' → R (.loop r level next') os os'
  body : ∀ {r : RuleIndex} {level : Int} {next : Nat} {os os' : List Outcome},
    R (.loop r level next) os os' → R (.body r level) os os'
  /-- An operator, its right operand, and further operators at the level of the first one. -/
  operator : ∀ {r : RuleIndex} {level : Int} {next : Nat} {primaries operators : List (Expr τ ρ)}
    {e : Expr τ ρ} {os os' : List Outcome} {f f' g g' : List TokenType → List Outcome},
    d.body r = some (.precedence primaries operators) → operators[next]? = some e →
      R (.expr e) os os' →
        (∀ u, .done u ∈ os → R (.rule r (operators.length - next + 1)) (f u) (f' u)) →
          (∀ u, .done u ∈ Outcome.andThen os f → Enumerates d answers (.loop r level 0) u (g u)) →
            (∀ u, .done u ∈ Outcome.andThen os f → R (.loop r level 0) (g u) (g' u)) →
              R (.loop r level next) (Outcome.andThen (Outcome.andThen os f) g)
                (Outcome.andThen (Outcome.andThen os' f') g')

/-- A relation that is the same for all phrases is a special case. Each demand on it follows from
one of the five. -/
theorem Relating.relatingBy {R : List Outcome → List Outcome → Prop} (hR : Relating R) {τ ρ : Type}
    (d : Definitions τ ρ) (answers : Answers) : RelatingBy d answers fun _ => R where
  done_iff := hR.done_iff
  done _ := hR.done
  symbols _ := hR.symbols
  append := hR.append
  andThen := hR.andThen
  expr _ h := h
  ref _ h := h
  loop _ h := h
  body h := h
  operator _ _ h hf _ hg := hR.andThen (hR.andThen h hf) hg

/-- Both sides prefer the same way, so this is appending in one of the two orders. -/
theorem RelatingBy.prefer {τ ρ : Type} {d : Definitions τ ρ} {answers : Answers}
    {R : Phrase τ ρ → List Outcome → List Outcome → Prop} (hR : RelatingBy d answers R)
    {x : Phrase τ ρ} {greedy : Bool} {os os' ps ps' : List Outcome} (h : R x os os')
    (h' : R x ps ps') : R x (prefer greedy os ps) (prefer greedy os' ps') := by
  cases greedy with
  | true => exact hR.append h h'
  | false => exact hR.append h' h

/-- Equality is such a relation. -/
theorem relating_eq : Relating (· = ·) where
  done_iff := by
    rintro os os' u rfl
    rfl
  done _ := rfl
  symbols _ _ := rfl
  append h h' := by rw [h, h']
  andThen := by
    rintro os os' f f' rfl hf
    exact andThen_congr hf

end

/-! ### Properties of a search -/

namespace Enumerates

open Outcome

variable {τ ρ : Type} {d : Definitions τ ρ} {answers : Answers} {x : Phrase τ ρ}
  {rest : List TokenType} {os : List Outcome}

/-- The tokens that are left are at the end of those that there were. -/
theorem suffix (h : Enumerates d answers x rest os) {u : List TokenType} (hu : .done u ∈ os) :
    u <:+ rest := by
  induction h generalizing u with
  | @terminal a rest =>
      cases rest with
      | nil => simp [ofSymbols] at hu
      | cons t rest =>
          rw [ofSymbols] at hu
          split at hu
          · rw [List.mem_singleton, Outcome.done.injEq] at hu
            exact hu ▸ List.suffix_cons t rest
          · cases hu
  | ref _ _ ih => exact ih hu
  | empty => simp_all
  | seqNil => simp_all
  | seqCons _ _ ih ih' =>
      obtain ⟨v, hv, hu⟩ := done_mem_andThen.mp hu
      exact (ih' v hv hu).trans (ih hv)
  | altNil => cases hu
  | altCons _ _ ih ih' =>
      rcases List.mem_append.mp hu with hu | hu
      · exact ih hu
      · exact ih' hu
  | optional _ ih =>
      rcases mem_prefer.mp hu with hu | hu
      · exact ih hu
      · simp_all
  | star _ _ ih ih' =>
      rcases mem_prefer.mp hu with hu | hu
      · obtain ⟨v, hv, hu⟩ := done_mem_andThen.mp hu
        exact (ih' v hv hu).trans (ih hv)
      · simp_all
  | plus _ _ ih ih' =>
      obtain ⟨v, hv, hu⟩ := done_mem_andThen.mp hu
      exact (ih' v hv hu).trans (ih hv)
  | answered _ => rw [(Answer.done_mem_outcomes.mp hu).2]
  | entered _ _ ih => exact ih (done_mem_map_within.mp hu)
  | plain _ _ ih => exact ih hu
  | precedence _ _ _ ih ih' =>
      obtain ⟨v, hv, hu⟩ := done_mem_andThen.mp hu
      exact (ih' v hv hu).trans (ih hv)
  | loopEnd _ _ => simp_all
  | loopSkip _ _ _ _ ih => exact ih hu
  -- Three phrases one after the other: the operator, its operand, and further operators.
  | loopMore _ _ _ _ _ _ _ ih ih' ih'' ihrest =>
      rcases List.mem_append.mp hu with hu | hu
      · obtain ⟨v, hv, hu⟩ := done_mem_andThen.mp hu
        obtain ⟨v', hv', hvf⟩ := done_mem_andThen.mp hv
        exact (ih'' v hv hu).trans ((ih' v' hv' hvf).trans (ih hv'))
      · exact ihrest hu

/-- A relation between the outcomes of two searches carries over from calls to all phrases. The
tokens of a call are at the end of `w`. -/
theorem related_by {answers' : Answers} {R : Phrase τ ρ → List Outcome → List Outcome → Prop}
    (hR : RelatingBy d answers R) {w : List TokenType}
    (hanswered : ∀ v r level a os', v <:+ w → answers v r = some a →
      Enumerates d answers' (.rule r level) v os' → R (.rule r level) (a.outcomes v) os')
    (hentered : ∀ v r level os os', v <:+ w → answers v r = none →
      Enumerates d answers (.body r level) v os →
      (∀ ps, Enumerates d answers' (.body r level) v ps → R (.body r level) os ps) →
      Enumerates d answers' (.rule r level) v os' → R (.rule r level) (os.map (within r)) os')
    {x : Phrase τ ρ} {v : List TokenType} {os os' : List Outcome}
    (h : Enumerates d answers x v os) (hv : v <:+ w) (h' : Enumerates d answers' x v os') :
    R x os os' := by
  induction h generalizing os' with
  | terminal =>
      cases h'
      exact hR.symbols _ _ _
  | ref hr _ ih =>
      cases h' with
      | ref hr' h' =>
          obtain rfl := Option.some.inj (hr.symm.trans hr')
          exact hR.ref _ (ih hv h')
  | empty =>
      cases h'
      exact hR.done _ _
  | seqNil =>
      cases h'
      exact hR.done _ _
  | seqCons hfirst _ ih ih' =>
      cases h' with
      | seqCons h₁ h₂ =>
          -- Related outcomes have the same ends, so both searches go on at the same tokens.
          have hpart := ih hv h₁
          refine hR.andThen hpart fun u hu => hR.expr _ (ih' u hu ?_ ?_)
          · exact (hfirst.suffix hu).trans hv
          · exact h₂ u ((hR.done_iff hpart).mp hu)
  | altNil =>
      cases h'
      -- A choice between no alternatives has the outcomes of a terminal that matches nothing.
      exact hR.symbols _ [] []
  | altCons _ _ ih ih' =>
      cases h' with
      | altCons h₁ h₂ => exact hR.append (hR.expr _ (ih hv h₁)) (hR.expr _ (ih' hv h₂))
  | optional _ ih =>
      cases h' with
      | optional h₁ => exact hR.prefer (hR.expr _ (ih hv h₁)) (hR.done _ _)
  | star hfirst _ ih ih' =>
      cases h' with
      | star h₁ h₂ =>
          have hpart := ih hv h₁
          refine hR.prefer (hR.andThen hpart fun u hu => ?_) (hR.done _ _)
          exact ih' u hu ((hfirst.suffix hu).trans hv) (h₂ u ((hR.done_iff hpart).mp hu))
  | plus hfirst _ ih ih' =>
      cases h' with
      | plus h₁ h₂ =>
          have hpart := ih hv h₁
          refine hR.andThen hpart fun u hu => hR.expr _ (ih' u hu ?_ ?_)
          · exact (hfirst.suffix hu).trans hv
          · exact h₂ u ((hR.done_iff hpart).mp hu)
  | answered ha => exact hanswered _ _ _ _ _ hv ha h'
  | entered ha hbody ih => exact hentered _ _ _ _ _ hv ha hbody (fun ps hps => ih hv hps) h'
  | plain hb _ ih =>
      cases h' with
      | plain hb' h' =>
          obtain rfl := Body.plain.inj (Option.some.inj (hb.symm.trans hb'))
          exact hR.expr _ (ih hv h')
      | precedence hb' _ _ => rw [hb] at hb'; cases hb'
  | precedence hb hfirst _ ih ih' =>
      cases h' with
      | plain hb' _ => rw [hb] at hb'; cases hb'
      | precedence hb' h₁ h₂ =>
          obtain ⟨rfl, rfl⟩ := Body.precedence.inj (Option.some.inj (hb.symm.trans hb'))
          have hpart := ih hv h₁
          refine hR.andThen hpart fun u hu => hR.body (ih' u hu ?_ ?_)
          · exact (hfirst.suffix hu).trans hv
          · exact h₂ u ((hR.done_iff hpart).mp hu)
  | loopEnd hb hend =>
      -- Which of the operators comes next does not depend on the answers.
      cases h' with
      | loopEnd _ _ => exact hR.done _ _
      | loopSkip hb' hlt _ _ =>
          obtain ⟨-, rfl⟩ := Body.precedence.inj (Option.some.inj (hb.symm.trans hb'))
          omega
      | loopMore hb' he _ _ _ _ _ =>
          obtain ⟨-, rfl⟩ := Body.precedence.inj (Option.some.inj (hb.symm.trans hb'))
          have hlt := (List.getElem?_eq_some_iff.mp he).1
          omega
  | loopSkip hb hlt hlevel _ ih =>
      cases h' with
      | loopEnd hb' hend =>
          obtain ⟨-, rfl⟩ := Body.precedence.inj (Option.some.inj (hb.symm.trans hb'))
          omega
      | loopSkip _ _ _ h' => exact hR.loop _ (ih hv h')
      | loopMore hb' _ hlevel' _ _ _ _ =>
          obtain ⟨-, rfl⟩ := Body.precedence.inj (Option.some.inj (hb.symm.trans hb'))
          omega
  | loopMore hb he hlevel hfirst hsecond hthird _ ih ih' ih'' ihrest =>
      cases h' with
      | loopEnd hb' hend =>
          obtain ⟨-, rfl⟩ := Body.precedence.inj (Option.some.inj (hb.symm.trans hb'))
          have hlt := (List.getElem?_eq_some_iff.mp he).1
          omega
      | loopSkip hb' _ hlevel' _ =>
          obtain ⟨-, rfl⟩ := Body.precedence.inj (Option.some.inj (hb.symm.trans hb'))
          omega
      | loopMore hb' he' _ h₁ h₂ h₃ h₄ =>
          obtain ⟨-, rfl⟩ := Body.precedence.inj (Option.some.inj (hb.symm.trans hb'))
          obtain rfl := Option.some.inj (he.symm.trans he')
          -- The operand is tried at the ends of the operator, and further operators at the ends of
          -- both.
          have hoperator := ih hv h₁
          have hoperand := fun u hu =>
            ih' u hu ((hfirst.suffix hu).trans hv) (h₂ u ((hR.done_iff hoperator).mp hu))
          refine hR.append (hR.operator hb he hoperator hoperand hthird fun u hu => ?_)
            (hR.loop _ (ihrest hv h₄))
          obtain ⟨u', hu', hu''⟩ := done_mem_andThen.mp hu
          refine ih'' u hu (((hsecond u' hu').suffix hu'').trans ((hfirst.suffix hu').trans hv))
            (h₃ u (done_mem_andThen.mpr ⟨u', ?_, ?_⟩))
          · exact (hR.done_iff hoperator).mp hu'
          · exact (hR.done_iff (hoperand u' hu')).mp hu''

/-- The case of a relation that is the same for all phrases. -/
theorem related {answers' : Answers} {R : List Outcome → List Outcome → Prop} (hR : Relating R)
    {w : List TokenType}
    (hanswered : ∀ v r level a os', v <:+ w → answers v r = some a →
      Enumerates d answers' (.rule r level) v os' → R (a.outcomes v) os')
    (hentered : ∀ v r level os os', v <:+ w → answers v r = none →
      Enumerates d answers (.body r level) v os →
      (∀ ps, Enumerates d answers' (.body r level) v ps → R os ps) →
      Enumerates d answers' (.rule r level) v os' → R (os.map (within r)) os')
    {x : Phrase τ ρ} {v : List TokenType} {os os' : List Outcome}
    (h : Enumerates d answers x v os) (hv : v <:+ w) (h' : Enumerates d answers' x v os') :
    R os os' :=
  related_by (hR.relatingBy d answers) hanswered hentered h hv h'

/-- A search has one list of outcomes. -/
theorem deterministic (h : Enumerates d answers x rest os) {os' : List Outcome}
    (h' : Enumerates d answers x rest os') : os = os' := by
  refine related relating_eq ?_ ?_ h (List.suffix_refl rest) h'
  · intro v r level a os' _ ha h'
    cases h' with
    | answered ha' => rw [Option.some.inj (ha.symm.trans ha')]
    | entered ha' _ => rw [ha] at ha'; cases ha'
  · intro v r level os os' _ ha _ ih h'
    cases h' with
    | answered ha' => rw [ha] at ha'; cases ha'
    | entered _ h' => rw [ih _ h']

/-! ### Outcomes and derivations

`Reads os rest Y` says that the tokens which the outcomes leave are those behind the lists in `Y`,
and `Offers os A` that the outcomes report the token types with their chains in `A`. Both carry over
from two phrases to one after the other. -/

/-- Exactly the lists in `Y` are read from the front of `rest`. -/
def Reads (os : List Outcome) (rest : List TokenType) (Y : List TokenType → Prop) : Prop :=
  ∀ u, .done u ∈ os ↔ ∃ w, rest = w ++ u ∧ Y w

/-- Exactly the token types in `A` are reported, with their chains. -/
def Offers (os : List Outcome) (A : Chain → TokenType → Prop) : Prop :=
  ∀ id c, .report id c ∈ os ↔ ∃ t, id = .token t ∧ A c t

/-- One phrase after the other reads what both read, in two parts. -/
theorem reads_andThen {f : List TokenType → List Outcome} {Y Y' : List TokenType → Prop}
    (h : Reads os rest Y) (h' : ∀ v, .done v ∈ os → Reads (f v) v Y') :
    Reads (andThen os f) rest fun w => ∃ u v, w = u ++ v ∧ Y u ∧ Y' v := by
  intro u
  rw [done_mem_andThen]
  constructor
  · rintro ⟨v, hv, hu⟩
    obtain ⟨w₁, rfl, h₁⟩ := (h v).mp hv
    obtain ⟨w₂, rfl, h₂⟩ := (h' v hv u).mp hu
    exact ⟨w₁ ++ w₂, (List.append_assoc ..).symm, w₁, w₂, rfl, h₁, h₂⟩
  · rintro ⟨-, rfl, w₁, w₂, rfl, h₁, h₂⟩
    have hv : .done (w₂ ++ u) ∈ os := (h _).mpr ⟨w₁, List.append_assoc .., h₁⟩
    exact ⟨w₂ ++ u, hv, (h' _ hv u).mpr ⟨w₂, rfl, h₂⟩⟩

/-- One phrase after the other waits in the first one, or in the second one where the first is
read. -/
theorem offers_andThen {f : List TokenType → List Outcome} {Y : List TokenType → Prop}
    {A : Chain → TokenType → Prop} {A' : List TokenType → Chain → TokenType → Prop}
    (hr : Reads os rest Y) (h : Offers os A) (h' : ∀ v, .done v ∈ os → Offers (f v) (A' v)) :
    Offers (andThen os f) fun c t => A c t ∨ ∃ u v, rest = u ++ v ∧ Y u ∧ A' v c t := by
  intro id c
  rw [report_mem_andThen]
  constructor
  · rintro (hc | ⟨v, hv, hc⟩)
    · obtain ⟨t, rfl, ht⟩ := (h id c).mp hc
      exact ⟨t, rfl, Or.inl ht⟩
    · -- The second phrase reports at an end of the first one, so the first one read what is in
      -- front.
      obtain ⟨u, rfl, hu⟩ := (hr v).mp hv
      obtain ⟨t, rfl, ht⟩ := (h' v hv id c).mp hc
      exact ⟨t, rfl, Or.inr ⟨u, v, rfl, hu, ht⟩⟩
  · rintro ⟨t, rfl, ht | ⟨u, v, rfl, hu, ht⟩⟩
    · exact Or.inl ((h _ c).mpr ⟨t, rfl, ht⟩)
    · have hv : .done v ∈ os := (hr v).mpr ⟨u, rfl, hu⟩
      exact Or.inr ⟨v, hv, (h' v hv _ c).mpr ⟨t, rfl, ht⟩⟩

/-- Where a phrase can be passed over, nothing may be read. -/
theorem reads_nil : Reads [.done rest] rest fun w => w = [] := by
  intro u
  simp only [List.mem_singleton, Outcome.done.injEq]
  constructor
  · rintro rfl
    exact ⟨[], rfl, rfl⟩
  · rintro ⟨-, rfl, rfl⟩
    rfl

/-- Where a phrase can be passed over, it does not wait for anything. -/
theorem offers_nil : Offers [.done rest] fun _ _ => False := by
  intro id c
  simp

/-- Of two ways, what is read is read on one of them. Their order does not matter. -/
theorem reads_or {os' : List Outcome} {Y Y' : List TokenType → Prop}
    {both : List Outcome} (hboth : ∀ o, o ∈ both ↔ o ∈ os ∨ o ∈ os') (h : Reads os rest Y)
    (h' : Reads os' rest Y') : Reads both rest fun w => Y w ∨ Y' w := by
  intro u
  rw [hboth, h u, h' u]
  constructor
  · rintro (⟨w, hw, hY⟩ | ⟨w, hw, hY⟩)
    · exact ⟨w, hw, Or.inl hY⟩
    · exact ⟨w, hw, Or.inr hY⟩
  · rintro ⟨w, hw, hY | hY⟩
    · exact Or.inl ⟨w, hw, hY⟩
    · exact Or.inr ⟨w, hw, hY⟩

/-- The same for what is waited for. -/
theorem offers_or {os' : List Outcome} {A A' : Chain → TokenType → Prop}
    {both : List Outcome} (hboth : ∀ o, o ∈ both ↔ o ∈ os ∨ o ∈ os') (h : Offers os A)
    (h' : Offers os' A') : Offers both fun c t => A c t ∨ A' c t := by
  intro id c
  rw [hboth, h id c, h' id c]
  constructor
  · rintro (⟨t, ht, hA⟩ | ⟨t, ht, hA⟩)
    · exact ⟨t, ht, Or.inl hA⟩
    · exact ⟨t, ht, Or.inr hA⟩
  · rintro ⟨t, ht, hA | hA⟩
    · exact Or.inl ⟨t, ht, hA⟩
    · exact Or.inr ⟨t, ht, hA⟩

/-- What is read may be described in another way. -/
theorem Reads.congr {Y Y' : List TokenType → Prop} (h : Reads os rest Y) (hY : ∀ w, Y w ↔ Y' w) :
    Reads os rest Y' := fun u => by
  rw [h u]
  exact exists_congr fun w => and_congr_right fun _ => hY w

/-- So may what is waited for. -/
theorem Offers.congr {A A' : Chain → TokenType → Prop} (h : Offers os A)
    (hA : ∀ c t, A c t ↔ A' c t) : Offers os A' := fun id c => by
  rw [h id c]
  exact exists_congr fun t => and_congr_right fun _ => hA c t

/-- Without answers, a search reads exactly the lists that the phrase derives. -/
theorem reads (h : Enumerates d noAnswers x rest os) : Reads os rest (Yields d x) := by
  induction h with
  | @terminal a rest =>
      intro u
      cases rest with
      | nil =>
          simp only [ofSymbols, List.mem_map, reduceCtorEq, and_false, exists_false, false_iff]
          rintro ⟨w, hw, hy⟩
          cases hy
          cases hw
      | cons t rest =>
          rw [ofSymbols]
          constructor
          · intro hu
            split at hu
            · rename_i ht
              rw [List.mem_singleton, Outcome.done.injEq] at hu
              exact ⟨[t], by rw [hu]; rfl, .terminal ht⟩
            · cases hu
          · rintro ⟨w, hw, hy⟩
            cases hy with
            | terminal ht =>
                obtain ⟨rfl, rfl⟩ := List.cons.inj hw
                rw [if_pos ht]
                simp
  | ref hr _ ih =>
      refine ih.congr fun w => ⟨.ref hr, fun h => ?_⟩
      cases h with
      | ref hr' h => exact Option.some.inj (hr'.symm.trans hr) ▸ h
  | empty => exact reads_nil.congr fun w => ⟨fun h => h ▸ .empty, fun h => by cases h; rfl⟩
  | seqNil => exact reads_nil.congr fun w => ⟨fun h => h ▸ .seqNil, fun h => by cases h; rfl⟩
  | seqCons _ _ ih ih' => exact (reads_andThen ih ih').congr fun w => Yields.seqCons_iff.symm
  | altNil =>
      intro u
      simp only [List.not_mem_nil, false_iff]
      rintro ⟨w, -, h⟩
      cases h with
      | alt hmem _ => cases hmem
  | altCons _ _ ih ih' =>
      exact (reads_or (fun o => List.mem_append) ih ih').congr fun w => Yields.altCons_iff.symm
  | optional _ ih =>
      refine (reads_or (fun o => mem_prefer) ih reads_nil).congr fun w => ⟨?_, fun h => ?_⟩
      · rintro (h | rfl)
        · exact .optional h
        · exact .optionalSkip
      · cases h with
        | optionalSkip => exact Or.inr rfl
        | optional h => exact Or.inl h
  | star _ _ ih ih' =>
      exact (reads_or (fun o => mem_prefer) (reads_andThen ih ih') reads_nil).congr fun w => by
        rw [Yields.star_iff, or_comm]
  | plus _ _ ih ih' => exact (reads_andThen ih ih').congr fun w => Yields.plus_iff.symm
  | answered ha => cases ha
  | entered _ _ ih =>
      intro u
      rw [done_mem_map_within, ih u]
      refine exists_congr fun w => and_congr_right fun _ => ⟨.rule, fun h => ?_⟩
      cases h with
      | rule h => exact h
  | plain hb _ ih =>
      refine ih.congr fun w => ⟨.plain hb, fun h => ?_⟩
      cases h with
      | plain hb' h => exact Body.plain.inj (Option.some.inj (hb'.symm.trans hb)) ▸ h
      | precedence hb' _ _ => rw [hb] at hb'; cases hb'
  | precedence hb _ _ ih ih' =>
      exact (reads_andThen ih ih').congr fun w => (Yields.precedence_iff hb).symm
  | loopEnd hb hend => exact reads_nil.congr fun w => (Yields.loop_end_iff hb hend).symm
  | loopSkip hb hlt hlevel _ ih =>
      refine ih.congr fun w => ?_
      rw [Yields.loop_iff hb (List.getElem?_eq_getElem hlt)]
      -- The level does not admit this operator.
      exact ⟨Or.inr, fun h => h.resolve_left fun h => by omega⟩
  | loopMore hb he hlevel _ _ _ _ ih ih' ih'' ihrest =>
      refine (reads_or (fun o => List.mem_append)
        (reads_andThen (reads_andThen ih ih') ih'') ihrest).congr fun w => ?_
      rw [Yields.loop_iff hb he, and_iff_right hlevel]

/-- Without answers, a search reports exactly the token types that a leftmost derivation of the
phrase awaits when all tokens are read, with the rules that are open then. -/
theorem offers (h : Enumerates d noAnswers x rest os) : Offers os (Awaits d x rest) := by
  induction h with
  | @terminal a rest =>
      intro id c
      cases rest with
      | nil =>
          simp only [ofSymbols, List.mem_map, Outcome.report.injEq]
          constructor
          · rintro ⟨t, ht, rfl, rfl⟩
            exact ⟨t, rfl, .terminal ht⟩
          · rintro ⟨t, rfl, h⟩
            cases h with
            | terminal ht => exact ⟨t, ht, rfl, rfl⟩
      | cons t rest =>
          constructor
          · intro hc
            rw [ofSymbols] at hc
            split at hc <;> simp at hc
          · rintro ⟨u, -, h⟩
            cases h
  | ref hr _ ih =>
      refine ih.congr fun c t => ⟨.ref hr, fun h => ?_⟩
      cases h with
      | ref hr' h => exact Option.some.inj (hr'.symm.trans hr) ▸ h
  | empty => exact offers_nil.congr fun c t => ⟨False.elim, fun h => by cases h⟩
  | seqNil => exact offers_nil.congr fun c t => ⟨False.elim, fun h => by cases h⟩
  | seqCons h₁ _ ih ih' =>
      exact (offers_andThen h₁.reads ih ih').congr fun c t => Awaits.seqCons_iff.symm
  | altNil =>
      intro id c
      simp only [List.not_mem_nil, false_iff]
      rintro ⟨t, -, h⟩
      cases h with
      | alt hmem _ => cases hmem
  | altCons _ _ ih ih' =>
      exact (offers_or (fun o => List.mem_append) ih ih').congr fun c t => Awaits.altCons_iff.symm
  | optional _ ih =>
      refine (offers_or (fun o => mem_prefer) ih offers_nil).congr fun c t => ⟨?_, fun h => ?_⟩
      · rintro (h | h)
        · exact .optional h
        · exact h.elim
      · cases h with
        | optional h => exact Or.inl h
  | star h₁ _ ih ih' =>
      exact (offers_or (fun o => mem_prefer) (offers_andThen h₁.reads ih ih') offers_nil).congr
        fun c t => by rw [or_false, Awaits.star_iff]
  | plus h₁ _ ih ih' =>
      exact (offers_andThen h₁.reads ih ih').congr fun c t => Awaits.plus_iff.symm
  | answered ha => cases ha
  | entered _ _ ih =>
      intro id c
      rw [report_mem_map_within]
      constructor
      · rintro ⟨c, rfl, hc⟩
        obtain ⟨t, rfl, h⟩ := (ih id c).mp hc
        exact ⟨t, rfl, .rule h⟩
      · rintro ⟨t, rfl, h⟩
        cases h with
        | rule h => exact ⟨_, rfl, (ih _ _).mpr ⟨t, rfl, h⟩⟩
  | plain hb _ ih =>
      refine ih.congr fun c t => ⟨.plain hb, fun h => ?_⟩
      cases h with
      | plain hb' h => exact Body.plain.inj (Option.some.inj (hb'.symm.trans hb)) ▸ h
      | primary hb' _ => rw [hb] at hb'; cases hb'
      | operators hb' _ _ => rw [hb] at hb'; cases hb'
  | precedence hb h₁ _ ih ih' =>
      exact (offers_andThen h₁.reads ih ih').congr fun c t => (Awaits.precedence_iff hb).symm
  | loopEnd hb hend =>
      exact offers_nil.congr fun c t => ⟨False.elim, Awaits.not_loop_end hb hend⟩
  | loopSkip hb hlt hlevel _ ih =>
      refine ih.congr fun c t => ?_
      rw [Awaits.loop_iff hb (List.getElem?_eq_getElem hlt)]
      -- As for the lists that are read, the level does not admit this operator.
      exact ⟨Or.inr, fun h => h.resolve_left fun h => by omega⟩
  | loopMore hb he hlevel h₁ h₂ _ _ ih ih' ih'' ihrest =>
      -- The operator and its right operand are one phrase after the other.
      have hread := reads_andThen h₁.reads fun v hv => (h₂ v hv).reads
      refine (offers_or (fun o => List.mem_append)
        (offers_andThen hread (offers_andThen h₁.reads ih ih') ih'') ihrest).congr fun c t => ?_
      rw [Awaits.loop_iff hb he, and_iff_right hlevel]

end Enumerates

/-! ### Candidates of outcomes -/

/-- Each report is a candidate of its own, and ends of the phrase are none. -/
theorem Outcome.mem_candidates {os : List Outcome} {c : Candidate} :
    c ∈ candidates os ↔ ∃ id chain, .report id chain ∈ os ∧ c = ⟨id, [chain]⟩ := by
  rw [candidates, List.mem_filterMap]
  constructor
  · rintro ⟨o, ho, hc⟩
    cases o with
    | report id chain =>
        cases hc
        exact ⟨id, chain, ho, rfl⟩
    | done u => cases hc
  · rintro ⟨id, chain, ho, rfl⟩
    exact ⟨_, ho, rfl⟩

section

variable {τ ρ : Type} {d : Definitions τ ρ} {x : Phrase τ ρ} {w : List TokenType}
  {os : List Outcome}

/-- The candidates of a search are what derivations wait for. -/
theorem Enumerates.mem_candidates_iff (h : Enumerates d noAnswers x w os)
    (c : Candidate) : c ∈ Outcome.candidates os ↔
      ∃ t chain, c = ⟨.token t, [chain]⟩ ∧ Awaits d x w chain t := by
  rw [Outcome.mem_candidates]
  constructor
  · rintro ⟨id, chain, hreport, rfl⟩
    obtain ⟨t, rfl, hawaits⟩ := (h.offers id chain).mp hreport
    exact ⟨t, chain, rfl, hawaits⟩
  · rintro ⟨t, chain, rfl, hawaits⟩
    exact ⟨.token t, chain, (h.offers _ _).mpr ⟨t, rfl, hawaits⟩, rfl⟩

/-- A search reads everything if the phrase derives the tokens. -/
theorem Enumerates.reachesEnd_iff (h : Enumerates d noAnswers x w os) :
    Outcome.reachesEnd os = true ↔ Yields d x w := by
  rw [Outcome.reachesEnd, List.contains_iff_mem, h.reads []]
  constructor
  · rintro ⟨u, hu, hyields⟩
    rw [List.append_nil] at hu
    rw [hu]
    exact hyields
  · intro hyields
    exact ⟨w, by rw [List.append_nil], hyields⟩

end

end Caret
