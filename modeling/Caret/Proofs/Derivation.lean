import Mathlib
import Caret.Candidate
import Caret.Grammar.Source

/-!
# `Caret.Proofs.Derivation`: what a grammar derives

The derivations of a grammar are read off its expressions, without a network. `Definitions` says
what the terminals, the references and the rules stand for. A `Phrase` is a part of a right-hand
side: an expression, a rule that is entered at a precedence level, the inside of such a rule, or
its operators.

* `Yields d x w`: the phrase `x` derives exactly the token types `w`.
* `Awaits d x w c t`: a leftmost derivation of `x` has read exactly `w`, its next terminal matches
  `t`, and the rules of `c` are open, outermost first.

A rule with operators is one primary and then any number of operators, each with its right operand.
Of `n` operators the one at position `k` has the level `n - k`. It is admitted if the rule was
entered at that level or a lower one, and its right operand is the rule itself, entered one level
higher.
-/

set_option autoImplicit false

namespace Caret

/-- What the terminals, the references and the rules of a grammar stand for. -/
structure Definitions (τ ρ : Type) where
  /-- The token types that a terminal matches, in ascending order. -/
  symbols : τ → List TokenType
  /-- The rule that a reference names. -/
  callee : ρ → Option RuleIndex
  body : RuleIndex → Option (Body τ ρ)

/-- A part of a right-hand side. -/
inductive Phrase (τ ρ : Type) where
  | expr (e : Expr τ ρ)
  /-- A rule, entered at a level. -/
  | rule (r : RuleIndex) (level : Int)
  /-- What stands between the start and the stop of a rule. -/
  | body (r : RuleIndex) (level : Int)
  /-- Any number of operators with their right operands. The first of them stands at position
  `next` or later among the operators of the rule. -/
  | loop (r : RuleIndex) (level : Int) (next : Nat)

/-! ### The token types of terminals -/

namespace Numbering

/-- The token types of a grammar in ascending order. -/
def tokenTypes (n : Numbering) : List TokenType :=
  (List.range n.size).map fun (i : Nat) => (i : Int) + 1

/-- The token type that a symbol names. -/
def typeOf? (n : Numbering) : Symbol → Option TokenType
  | .literal text => n.literalType? text
  | .token name => n.tokenType? name
  | .endOfInput => some Caret.endOfInput

/-- Whether one of the symbols names the token type. -/
def names (n : Numbering) (symbols : List Symbol) (t : TokenType) : Bool :=
  symbols.any fun s => n.typeOf? s = some t

/-- The token types that a terminal matches. Negations and the terminal for any token range over
the token types of the grammar, which do not include the end of the input. -/
def symbolsOf (n : Numbering) : Terminal → List TokenType
  | .one s => (n.typeOf? s).toList
  | .oneOf symbols => (Caret.endOfInput :: n.tokenTypes).filter (n.names symbols)
  | .noneOf symbols => n.tokenTypes.filter fun t => !n.names symbols t
  | .any => n.tokenTypes

end Numbering

/-- A grammar as it is written: terminals by the numbering of its tokens, references by the names
of its rules. -/
def Source.definitions (s : Source) : Definitions Terminal String where
  symbols := s.numbering.symbolsOf
  callee name := (s.rules.map Rule.name).idxOf? name
  body r := s.rules[r]?.map Rule.body

/-- The symbols of a label in ascending order. -/
def Label.values (u : Universe) (l : Label) : List TokenType :=
  match l.symbols u with
  | .ok set => set.toList
  | .error _ => []

/-- Rules with names resolved: terminals are labels and references are positions. -/
def Definitions.ofRules (rules : List (Rule Label RuleIndex)) (u : Universe) :
    Definitions Label RuleIndex where
  symbols := Label.values u
  callee := some
  body r := rules[r]?.map Rule.body

/-! ### Derivations -/

section

variable {τ ρ : Type} (d : Definitions τ ρ)

/-- The phrase derives exactly the token types. -/
inductive Yields : Phrase τ ρ → List TokenType → Prop where
  | terminal {a : τ} {t : TokenType} :
      t ∈ d.symbols a → Yields (.expr (.terminal a)) [t]
  | ref {x : ρ} {r : RuleIndex} {w : List TokenType} :
      d.callee x = some r → Yields (.rule r 0) w → Yields (.expr (.rule x)) w
  | empty : Yields (.expr .empty) []
  | seqNil : Yields (.expr (.seq [])) []
  | seqCons {e : Expr τ ρ} {es : List (Expr τ ρ)} {u v : List TokenType} :
      Yields (.expr e) u → Yields (.expr (.seq es)) v → Yields (.expr (.seq (e :: es))) (u ++ v)
  | alt {e : Expr τ ρ} {es : List (Expr τ ρ)} {w : List TokenType} :
      e ∈ es → Yields (.expr e) w → Yields (.expr (.alt es)) w
  | optionalSkip {e : Expr τ ρ} {greedy : Bool} : Yields (.expr (.optional e greedy)) []
  | optional {e : Expr τ ρ} {greedy : Bool} {w : List TokenType} :
      Yields (.expr e) w → Yields (.expr (.optional e greedy)) w
  | starNil {e : Expr τ ρ} {greedy : Bool} : Yields (.expr (.star e greedy)) []
  | starCons {e : Expr τ ρ} {greedy : Bool} {u v : List TokenType} :
      Yields (.expr e) u → Yields (.expr (.star e greedy)) v →
        Yields (.expr (.star e greedy)) (u ++ v)
  | plus {e : Expr τ ρ} {greedy : Bool} {u v : List TokenType} :
      Yields (.expr e) u → Yields (.expr (.star e greedy)) v →
        Yields (.expr (.plus e greedy)) (u ++ v)
  | rule {r : RuleIndex} {level : Int} {w : List TokenType} :
      Yields (.body r level) w → Yields (.rule r level) w
  | plain {r : RuleIndex} {level : Int} {e : Expr τ ρ} {w : List TokenType} :
      d.body r = some (.plain e) → Yields (.expr e) w → Yields (.body r level) w
  | precedence {r : RuleIndex} {level : Int} {primaries operators : List (Expr τ ρ)}
      {u v : List TokenType} :
      d.body r = some (.precedence primaries operators) →
        Yields (.expr (.alt primaries)) u → Yields (.loop r level 0) v →
          Yields (.body r level) (u ++ v)
  | loopEnd {r : RuleIndex} {level : Int} {next : Nat} : Yields (.loop r level next) []
  | loopMore {r : RuleIndex} {level : Int} {next k : Nat}
      {primaries operators : List (Expr τ ρ)} {e : Expr τ ρ} {u v w : List TokenType} :
      d.body r = some (.precedence primaries operators) → next ≤ k → operators[k]? = some e →
        level ≤ operators.length - k → Yields (.expr e) u →
          Yields (.rule r (operators.length - k + 1)) v → Yields (.loop r level 0) w →
            Yields (.loop r level next) (u ++ (v ++ w))

/-- A leftmost derivation of the phrase has read exactly the token types, the next terminal matches
`t`, and the rules of the chain are open. -/
inductive Awaits : Phrase τ ρ → List TokenType → Chain → TokenType → Prop where
  | terminal {a : τ} {t : TokenType} :
      t ∈ d.symbols a → Awaits (.expr (.terminal a)) [] [] t
  | ref {x : ρ} {r : RuleIndex} {w : List TokenType} {c : Chain} {t : TokenType} :
      d.callee x = some r → Awaits (.rule r 0) w c t → Awaits (.expr (.rule x)) w c t
  | seqHead {e : Expr τ ρ} {es : List (Expr τ ρ)} {w : List TokenType} {c : Chain}
      {t : TokenType} :
      Awaits (.expr e) w c t → Awaits (.expr (.seq (e :: es))) w c t
  | seqTail {e : Expr τ ρ} {es : List (Expr τ ρ)} {u v : List TokenType} {c : Chain}
      {t : TokenType} :
      Yields d (.expr e) u → Awaits (.expr (.seq es)) v c t →
        Awaits (.expr (.seq (e :: es))) (u ++ v) c t
  | alt {e : Expr τ ρ} {es : List (Expr τ ρ)} {w : List TokenType} {c : Chain} {t : TokenType} :
      e ∈ es → Awaits (.expr e) w c t → Awaits (.expr (.alt es)) w c t
  | optional {e : Expr τ ρ} {greedy : Bool} {w : List TokenType} {c : Chain} {t : TokenType} :
      Awaits (.expr e) w c t → Awaits (.expr (.optional e greedy)) w c t
  | starHead {e : Expr τ ρ} {greedy : Bool} {w : List TokenType} {c : Chain} {t : TokenType} :
      Awaits (.expr e) w c t → Awaits (.expr (.star e greedy)) w c t
  | starTail {e : Expr τ ρ} {greedy : Bool} {u v : List TokenType} {c : Chain} {t : TokenType} :
      Yields d (.expr e) u → Awaits (.expr (.star e greedy)) v c t →
        Awaits (.expr (.star e greedy)) (u ++ v) c t
  | plusHead {e : Expr τ ρ} {greedy : Bool} {w : List TokenType} {c : Chain} {t : TokenType} :
      Awaits (.expr e) w c t → Awaits (.expr (.plus e greedy)) w c t
  | plusTail {e : Expr τ ρ} {greedy : Bool} {u v : List TokenType} {c : Chain} {t : TokenType} :
      Yields d (.expr e) u → Awaits (.expr (.star e greedy)) v c t →
        Awaits (.expr (.plus e greedy)) (u ++ v) c t
  | rule {r : RuleIndex} {level : Int} {w : List TokenType} {c : Chain} {t : TokenType} :
      Awaits (.body r level) w c t → Awaits (.rule r level) w (r :: c) t
  | plain {r : RuleIndex} {level : Int} {e : Expr τ ρ} {w : List TokenType} {c : Chain}
      {t : TokenType} :
      d.body r = some (.plain e) → Awaits (.expr e) w c t → Awaits (.body r level) w c t
  | primary {r : RuleIndex} {level : Int} {primaries operators : List (Expr τ ρ)}
      {w : List TokenType} {c : Chain} {t : TokenType} :
      d.body r = some (.precedence primaries operators) →
        Awaits (.expr (.alt primaries)) w c t → Awaits (.body r level) w c t
  | operators {r : RuleIndex} {level : Int} {primaries operators : List (Expr τ ρ)}
      {u v : List TokenType} {c : Chain} {t : TokenType} :
      d.body r = some (.precedence primaries operators) →
        Yields d (.expr (.alt primaries)) u → Awaits (.loop r level 0) v c t →
          Awaits (.body r level) (u ++ v) c t
  | operator {r : RuleIndex} {level : Int} {next k : Nat}
      {primaries operators : List (Expr τ ρ)} {e : Expr τ ρ} {w : List TokenType} {c : Chain}
      {t : TokenType} :
      d.body r = some (.precedence primaries operators) → next ≤ k → operators[k]? = some e →
        level ≤ operators.length - k → Awaits (.expr e) w c t →
          Awaits (.loop r level next) w c t
  | operand {r : RuleIndex} {level : Int} {next k : Nat}
      {primaries operators : List (Expr τ ρ)} {e : Expr τ ρ} {u v : List TokenType} {c : Chain}
      {t : TokenType} :
      d.body r = some (.precedence primaries operators) → next ≤ k → operators[k]? = some e →
        level ≤ operators.length - k → Yields d (.expr e) u →
          Awaits (.rule r (operators.length - k + 1)) v c t →
            Awaits (.loop r level next) (u ++ v) c t
  | loopMore {r : RuleIndex} {level : Int} {next k : Nat}
      {primaries operators : List (Expr τ ρ)} {e : Expr τ ρ} {u v w : List TokenType} {c : Chain}
      {t : TokenType} :
      d.body r = some (.precedence primaries operators) → next ≤ k → operators[k]? = some e →
        level ≤ operators.length - k → Yields d (.expr e) u →
          Yields d (.rule r (operators.length - k + 1)) v → Awaits (.loop r level 0) w c t →
            Awaits (.loop r level next) (u ++ (v ++ w)) c t

end

/-! ### How a phrase derives -/

section

variable {τ ρ : Type} {d : Definitions τ ρ} {e : Expr τ ρ} {es : List (Expr τ ρ)}
  {w : List TokenType} {c : Chain} {t : TokenType}

/-- A sequence derives what its first part derives, followed by what the rest derives. -/
theorem Yields.seqCons_iff : Yields d (.expr (.seq (e :: es))) w ↔
    ∃ u v, w = u ++ v ∧ Yields d (.expr e) u ∧ Yields d (.expr (.seq es)) v := by
  constructor
  · intro h
    cases h with
    | seqCons h₁ h₂ => exact ⟨_, _, rfl, h₁, h₂⟩
  · rintro ⟨u, v, rfl, h₁, h₂⟩
    exact .seqCons h₁ h₂

/-- A choice derives what its first alternative or one of the others derives. -/
theorem Yields.altCons_iff : Yields d (.expr (.alt (e :: es))) w ↔
    Yields d (.expr e) w ∨ Yields d (.expr (.alt es)) w := by
  constructor
  · intro h
    cases h with
    | alt hmem h =>
        rcases List.mem_cons.mp hmem with rfl | hmem
        · exact Or.inl h
        · exact Or.inr (.alt hmem h)
  · rintro (h | h)
    · exact .alt (by simp) h
    · cases h with
      | alt hmem h => exact .alt (List.mem_cons_of_mem _ hmem) h

/-- A repeated part derives nothing, or the part once and then the repetition again. -/
theorem Yields.star_iff {greedy : Bool} : Yields d (.expr (.star e greedy)) w ↔
    w = [] ∨ ∃ u v, w = u ++ v ∧ Yields d (.expr e) u ∧ Yields d (.expr (.star e greedy)) v := by
  constructor
  · intro h
    cases h with
    | starNil => exact Or.inl rfl
    | starCons h₁ h₂ => exact Or.inr ⟨_, _, rfl, h₁, h₂⟩
  · rintro (rfl | ⟨u, v, rfl, h₁, h₂⟩)
    · exact .starNil
    · exact .starCons h₁ h₂

/-- Here the part is derived at least once. -/
theorem Yields.plus_iff {greedy : Bool} : Yields d (.expr (.plus e greedy)) w ↔
    ∃ u v, w = u ++ v ∧ Yields d (.expr e) u ∧ Yields d (.expr (.star e greedy)) v := by
  constructor
  · intro h
    cases h with
    | plus h₁ h₂ => exact ⟨_, _, rfl, h₁, h₂⟩
  · rintro ⟨u, v, rfl, h₁, h₂⟩
    exact .plus h₁ h₂

/-- A sequence waits within its first part, or within the rest behind all of the first part. -/
theorem Awaits.seqCons_iff : Awaits d (.expr (.seq (e :: es))) w c t ↔
    Awaits d (.expr e) w c t ∨
      ∃ u v, w = u ++ v ∧ Yields d (.expr e) u ∧ Awaits d (.expr (.seq es)) v c t := by
  constructor
  · intro h
    cases h with
    | seqHead h => exact Or.inl h
    | seqTail h₁ h₂ => exact Or.inr ⟨_, _, rfl, h₁, h₂⟩
  · rintro (h | ⟨u, v, rfl, h₁, h₂⟩)
    · exact .seqHead h
    · exact .seqTail h₁ h₂

/-- A choice waits within one of its alternatives. -/
theorem Awaits.altCons_iff : Awaits d (.expr (.alt (e :: es))) w c t ↔
    Awaits d (.expr e) w c t ∨ Awaits d (.expr (.alt es)) w c t := by
  constructor
  · intro h
    cases h with
    | alt hmem h =>
        rcases List.mem_cons.mp hmem with rfl | hmem
        · exact Or.inl h
        · exact Or.inr (.alt hmem h)
  · rintro (h | h)
    · exact .alt (by simp) h
    · cases h with
      | alt hmem h => exact .alt (List.mem_cons_of_mem _ hmem) h

/-- A repeated part waits within the part, now or behind some repetitions. -/
theorem Awaits.star_iff {greedy : Bool} : Awaits d (.expr (.star e greedy)) w c t ↔
    Awaits d (.expr e) w c t ∨
      ∃ u v, w = u ++ v ∧ Yields d (.expr e) u ∧ Awaits d (.expr (.star e greedy)) v c t := by
  constructor
  · intro h
    cases h with
    | starHead h => exact Or.inl h
    | starTail h₁ h₂ => exact Or.inr ⟨_, _, rfl, h₁, h₂⟩
  · rintro (h | ⟨u, v, rfl, h₁, h₂⟩)
    · exact .starHead h
    · exact .starTail h₁ h₂

/-- The same if the part comes at least once. What differs is where the phrase may end, not where it
may wait. -/
theorem Awaits.plus_iff {greedy : Bool} : Awaits d (.expr (.plus e greedy)) w c t ↔
    Awaits d (.expr e) w c t ∨
      ∃ u v, w = u ++ v ∧ Yields d (.expr e) u ∧ Awaits d (.expr (.star e greedy)) v c t := by
  constructor
  · intro h
    cases h with
    | plusHead h => exact Or.inl h
    | plusTail h₁ h₂ => exact Or.inr ⟨_, _, rfl, h₁, h₂⟩
  · rintro (h | ⟨u, v, rfl, h₁, h₂⟩)
    · exact .plusHead h
    · exact .plusTail h₁ h₂

/-! A rule with operators -/

section

variable {r : RuleIndex} {level : Int} {primaries operators : List (Expr τ ρ)}
  (hb : d.body r = some (.precedence primaries operators))

include hb

/-- A rule with operators derives a primary and then operators. -/
theorem Yields.precedence_iff : Yields d (.body r level) w ↔
    ∃ u v, w = u ++ v ∧ Yields d (.expr (.alt primaries)) u ∧ Yields d (.loop r level 0) v := by
  constructor
  · intro h
    cases h with
    | plain hb' _ => rw [hb] at hb'; cases hb'
    | precedence hb' h₁ h₂ =>
        obtain ⟨rfl, -⟩ := Body.precedence.inj (Option.some.inj (hb.symm.trans hb'))
        exact ⟨_, _, rfl, h₁, h₂⟩
  · rintro ⟨u, v, rfl, h₁, h₂⟩
    exact .precedence hb h₁ h₂

/-- It waits within a primary or within the operators behind one. -/
theorem Awaits.precedence_iff : Awaits d (.body r level) w c t ↔
    Awaits d (.expr (.alt primaries)) w c t ∨
      ∃ u v, w = u ++ v ∧ Yields d (.expr (.alt primaries)) u ∧
        Awaits d (.loop r level 0) v c t := by
  constructor
  · intro h
    cases h with
    | plain hb' _ => rw [hb] at hb'; cases hb'
    | primary hb' h =>
        obtain ⟨rfl, -⟩ := Body.precedence.inj (Option.some.inj (hb.symm.trans hb'))
        exact Or.inl h
    | operators hb' h₁ h₂ =>
        obtain ⟨rfl, -⟩ := Body.precedence.inj (Option.some.inj (hb.symm.trans hb'))
        exact Or.inr ⟨_, _, rfl, h₁, h₂⟩
  · rintro (h | ⟨u, v, rfl, h₁, h₂⟩)
    · exact .primary hb h
    · exact .operators hb h₁ h₂

/-- Behind the last operator nothing is left but to leave the operators. -/
theorem Yields.loop_end_iff {next : Nat} (hend : operators.length ≤ next) :
    Yields d (.loop r level next) w ↔ w = [] := by
  constructor
  · intro h
    cases h with
    | loopEnd => rfl
    | loopMore hb' hle he _ _ _ _ =>
        obtain ⟨-, rfl⟩ := Body.precedence.inj (Option.some.inj (hb.symm.trans hb'))
        have := (List.getElem?_eq_some_iff.mp he).1
        omega
  · rintro rfl
    exact .loopEnd

/-- Behind the last operator nothing is waited for. -/
theorem Awaits.not_loop_end {next : Nat} (hend : operators.length ≤ next) :
    ¬ Awaits d (.loop r level next) w c t := by
  intro h
  -- All three ways to wait in the operators need an operator at this position or later.
  have hlt : ∀ {k : Nat} {ops : List (Expr τ ρ)} {ps : List (Expr τ ρ)} {e : Expr τ ρ},
      d.body r = some (.precedence ps ops) → next ≤ k → ops[k]? = some e → False := by
    intro k ops ps e hb' hle he
    obtain ⟨-, rfl⟩ := Body.precedence.inj (Option.some.inj (hb.symm.trans hb'))
    have := (List.getElem?_eq_some_iff.mp he).1
    omega
  cases h with
  | operator hb' hle he _ _ => exact hlt hb' hle he
  | operand hb' hle he _ _ _ => exact hlt hb' hle he
  | loopMore hb' hle he _ _ _ _ => exact hlt hb' hle he

/-- The operators from one position on: the operator there, if it is admitted, or a later one. -/
theorem Yields.loop_iff {next : Nat} (he : operators[next]? = some e) :
    Yields d (.loop r level next) w ↔
      (level ≤ operators.length - next ∧ ∃ u v, w = u ++ v ∧
        (∃ u₁ u₂, u = u₁ ++ u₂ ∧ Yields d (.expr e) u₁ ∧
          Yields d (.rule r (operators.length - next + 1)) u₂) ∧ Yields d (.loop r level 0) v) ∨
      Yields d (.loop r level (next + 1)) w := by
  constructor
  · intro h
    cases h with
    | loopEnd => exact Or.inr .loopEnd
    | loopMore hb' hle he' hlevel h₁ h₂ h₃ =>
        obtain ⟨-, rfl⟩ := Body.precedence.inj (Option.some.inj (hb.symm.trans hb'))
        -- The operator that comes first is the one at this position or a later one.
        rcases Nat.eq_or_lt_of_le hle with rfl | hlt
        · obtain rfl := Option.some.inj (he.symm.trans he')
          exact Or.inl ⟨hlevel, _, _, (List.append_assoc ..).symm, ⟨_, _, rfl, h₁, h₂⟩, h₃⟩
        · exact Or.inr (.loopMore hb hlt he' hlevel h₁ h₂ h₃)
  · rintro (⟨hlevel, u, v, rfl, ⟨u₁, u₂, rfl, h₁, h₂⟩, h₃⟩ | h)
    · rw [List.append_assoc]
      exact .loopMore hb (Nat.le_refl _) he hlevel h₁ h₂ h₃
    · cases h with
      | loopEnd => exact .loopEnd
      | loopMore hb' hle he' hlevel h₁ h₂ h₃ =>
          exact .loopMore hb' (Nat.le_of_succ_le hle) he' hlevel h₁ h₂ h₃

/-- The same for what is waited for: it is in the operator, in its operand, or behind both, or it
belongs to a later operator. -/
theorem Awaits.loop_iff {next : Nat} (he : operators[next]? = some e) :
    Awaits d (.loop r level next) w c t ↔
      (level ≤ operators.length - next ∧
        ((Awaits d (.expr e) w c t ∨ ∃ u v, w = u ++ v ∧ Yields d (.expr e) u ∧
            Awaits d (.rule r (operators.length - next + 1)) v c t) ∨
          ∃ u v, w = u ++ v ∧ (∃ u₁ u₂, u = u₁ ++ u₂ ∧ Yields d (.expr e) u₁ ∧
            Yields d (.rule r (operators.length - next + 1)) u₂) ∧
              Awaits d (.loop r level 0) v c t)) ∨
      Awaits d (.loop r level (next + 1)) w c t := by
  constructor
  · intro h
    cases h with
    -- Each case is split by whether the operator stands at this position or later.
    | operator hb' hle he' hlevel h =>
        obtain ⟨-, rfl⟩ := Body.precedence.inj (Option.some.inj (hb.symm.trans hb'))
        rcases Nat.eq_or_lt_of_le hle with rfl | hlt
        · obtain rfl := Option.some.inj (he.symm.trans he')
          exact Or.inl ⟨hlevel, Or.inl (Or.inl h)⟩
        · exact Or.inr (.operator hb hlt he' hlevel h)
    | operand hb' hle he' hlevel h₁ h₂ =>
        obtain ⟨-, rfl⟩ := Body.precedence.inj (Option.some.inj (hb.symm.trans hb'))
        rcases Nat.eq_or_lt_of_le hle with rfl | hlt
        · obtain rfl := Option.some.inj (he.symm.trans he')
          exact Or.inl ⟨hlevel, Or.inl (Or.inr ⟨_, _, rfl, h₁, h₂⟩)⟩
        · exact Or.inr (.operand hb hlt he' hlevel h₁ h₂)
    | loopMore hb' hle he' hlevel h₁ h₂ h₃ =>
        obtain ⟨-, rfl⟩ := Body.precedence.inj (Option.some.inj (hb.symm.trans hb'))
        rcases Nat.eq_or_lt_of_le hle with rfl | hlt
        · obtain rfl := Option.some.inj (he.symm.trans he')
          exact Or.inl ⟨hlevel, Or.inr ⟨_, _, (List.append_assoc ..).symm,
            ⟨_, _, rfl, h₁, h₂⟩, h₃⟩⟩
        · exact Or.inr (.loopMore hb hlt he' hlevel h₁ h₂ h₃)
  · rintro (⟨hlevel, (h | ⟨u, v, rfl, h₁, h₂⟩) | ⟨u, v, rfl, ⟨u₁, u₂, rfl, h₁, h₂⟩, h₃⟩⟩ | h)
    · exact .operator hb (Nat.le_refl _) he hlevel h
    · exact .operand hb (Nat.le_refl _) he hlevel h₁ h₂
    · rw [List.append_assoc]
      exact .loopMore hb (Nat.le_refl _) he hlevel h₁ h₂ h₃
    · cases h with
      | operator hb' hle he' hlevel h =>
          exact .operator hb' (Nat.le_of_succ_le hle) he' hlevel h
      | operand hb' hle he' hlevel h₁ h₂ =>
          exact .operand hb' (Nat.le_of_succ_le hle) he' hlevel h₁ h₂
      | loopMore hb' hle he' hlevel h₁ h₂ h₃ =>
          exact .loopMore hb' (Nat.le_of_succ_le hle) he' hlevel h₁ h₂ h₃

end

/-! ### Levels -/

section

variable {r : RuleIndex} {level : Int} {next : Nat}

/-- Whether a rule derives the empty text does not depend on the level, because the operators can be
left at any level. -/
theorem Yields.rule_nil (h : Yields d (.rule r level) []) (level' : Int) :
    Yields d (.rule r level') [] := by
  cases h with
  | rule h =>
      -- The text is named, since the derivation of a rule with operators splits it in two.
      generalize hw : ([] : List TokenType) = w at h
      cases h with
      | plain hb h => exact .rule (.plain hb h)
      | precedence hb h h' =>
          obtain ⟨rfl, rfl⟩ := List.append_eq_nil_iff.mp hw.symm
          exact .rule (.precedence hb h .loopEnd)

/-- At level zero all operators are admitted. -/
theorem Awaits.loop_zero (h : Awaits d (.loop r level next) w c t) :
    Awaits d (.loop r 0 next) w c t := by
  -- The phrase is named so that the induction can be on the derivation. The levels of operators are
  -- positive.
  generalize hx : Phrase.loop r level next = x at h
  induction h generalizing next with
  | operator hb hle he _ h _ =>
      cases hx
      have hlt := (List.getElem?_eq_some_iff.mp he).1
      exact .operator hb hle he (by omega) h
  | operand hb hle he _ h₁ h₂ _ =>
      cases hx
      have hlt := (List.getElem?_eq_some_iff.mp he).1
      exact .operand hb hle he (by omega) h₁ h₂
  | loopMore hb hle he _ h₁ h₂ _ ih =>
      cases hx
      have hlt := (List.getElem?_eq_some_iff.mp he).1
      exact .loopMore hb hle he (by omega) h₁ h₂ (ih rfl)
  | _ => cases hx

/-- What a rule waits for at some level it waits for at level zero. -/
theorem Awaits.rule_zero (h : Awaits d (.rule r level) w c t) : Awaits d (.rule r 0) w c t := by
  cases h with
  | rule h =>
      cases h with
      | plain hb h => exact .rule (.plain hb h)
      | primary hb h => exact .rule (.primary hb h)
      | operators hb h h' => exact .rule (.operators hb h h'.loop_zero)

end

end

end Caret
