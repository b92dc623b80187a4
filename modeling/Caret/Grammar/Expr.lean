import Caret.Network.Edge

/-!
# `Caret.Grammar.Expr`: the right-hand sides of rules

An expression is built from terminals of a type `τ` and references to rules of a type `ρ`. A grammar
is written with names (`Expr Terminal String`). Once names are resolved, it is made of labels and
rule positions (`Expr Label RuleIndex`).

`nullable` tells whether an expression can match without reading a token, and `leftCalls` lists the
rules that can be called before a token is read. Both are relative to what is known of the rules.
-/

set_option autoImplicit false

namespace Caret

/-- The right-hand side of a rule. A greedy optional or repeated part prefers one more copy, the
others prefer to go on. -/
inductive Expr (τ ρ : Type) where
  | terminal (t : τ)
  | rule (r : ρ)
  | empty
  | seq (parts : List (Expr τ ρ))
  | alt (alternatives : List (Expr τ ρ))
  | optional (body : Expr τ ρ) (greedy : Bool)
  | star (body : Expr τ ρ) (greedy : Bool)
  | plus (body : Expr τ ρ) (greedy : Bool)

namespace Expr

variable {τ ρ : Type}

mutual

/-- The expression and all its parts, each before its own parts. -/
def nodes : Expr τ ρ → List (Expr τ ρ)
  | .terminal t => [.terminal t]
  | .rule r => [.rule r]
  | .empty => [.empty]
  | .seq parts => .seq parts :: nodesOfList parts
  | .alt alternatives => .alt alternatives :: nodesOfList alternatives
  | .optional body greedy => .optional body greedy :: nodes body
  | .star body greedy => .star body greedy :: nodes body
  | .plus body greedy => .plus body greedy :: nodes body

/-- The parts of the expressions in order. -/
def nodesOfList : List (Expr τ ρ) → List (Expr τ ρ)
  | [] => []
  | e :: es => nodes e ++ nodesOfList es

end

mutual

/-- Whether the expression is written with nothing but `empty`. -/
def isTriviallyEmpty : Expr τ ρ → Bool
  | .empty => true
  | .seq parts => areTriviallyEmpty parts
  | .alt alternatives => areTriviallyEmpty alternatives
  | _ => false

/-- Whether all expressions are written with nothing but `empty`. -/
def areTriviallyEmpty : List (Expr τ ρ) → Bool
  | [] => true
  | e :: es => isTriviallyEmpty e && areTriviallyEmpty es

end

/-! ### Replacing terminals and references -/

section Resolve

variable {ε τ' ρ' : Type} (terminalOf : τ → Except ε τ') (ruleOf : ρ → Except ε ρ')

mutual

/-- Replace the terminals and the references, from left to right. The first one without a
replacement is the error. -/
def resolve : Expr τ ρ → Except ε (Expr τ' ρ')
  | .terminal t => (terminalOf t).map .terminal
  | .rule r => (ruleOf r).map .rule
  | .empty => .ok .empty
  | .seq parts => (resolveList parts).map .seq
  | .alt alternatives => (resolveList alternatives).map .alt
  | .optional body greedy => (resolve body).map (.optional · greedy)
  | .star body greedy => (resolve body).map (.star · greedy)
  | .plus body greedy => (resolve body).map (.plus · greedy)

/-- Replace the terminals and the references of the expressions in order. -/
def resolveList : List (Expr τ ρ) → Except ε (List (Expr τ' ρ'))
  | [] => .ok []
  | e :: es => do
      let first ← resolve e
      let rest ← resolveList es
      return first :: rest

end

end Resolve

/-! ### What comes before the first token -/

section LeftEdge

variable (known : ρ → Bool)

mutual

/-- Whether the expression can match without reading a token, given which rules can. A choice
without alternatives counts as one that can. -/
def nullable : Expr τ ρ → Bool
  | .terminal _ => false
  | .rule r => known r
  | .empty => true
  | .seq parts => allNullable parts
  | .alt [] => true
  | .alt (e :: es) => nullable e || anyNullable es
  | .optional _ _ => true
  | .star _ _ => true
  | .plus body _ => nullable body

/-- Whether each of the expressions can match without reading a token. -/
def allNullable : List (Expr τ ρ) → Bool
  | [] => true
  | e :: es => nullable e && allNullable es

/-- Whether one of the expressions can match without reading a token. -/
def anyNullable : List (Expr τ ρ) → Bool
  | [] => false
  | e :: es => nullable e || anyNullable es

end

mutual

/-- The rules that can be called before a token is read, in order and with repetitions. -/
def leftCalls : Expr τ ρ → List ρ
  | .terminal _ => []
  | .rule r => [r]
  | .empty => []
  | .seq parts => leftCallsOfSeq parts
  | .alt alternatives => leftCallsOfAlt alternatives
  | .optional body _ => leftCalls body
  | .star body _ => leftCalls body
  | .plus body _ => leftCalls body

/-- The first calls of parts one after the other, up to the first part that reads a token. -/
def leftCallsOfSeq : List (Expr τ ρ) → List ρ
  | [] => []
  | e :: es => leftCalls e ++ if nullable known e then leftCallsOfSeq es else []

/-- The first calls of alternatives. -/
def leftCallsOfAlt : List (Expr τ ρ) → List ρ
  | [] => []
  | e :: es => leftCalls e ++ leftCallsOfAlt es

end

/-- Whether the expression repeats something that can match without reading a token. -/
def repeatsNullable (e : Expr τ ρ) : Bool :=
  e.nodes.any fun
    | .star body _ => nullable known body
    | .plus body _ => nullable known body
    | _ => false

end LeftEdge

end Expr

/-! ### Rules -/

/-- What a rule stands for: an expression, or operators over primaries, the operators that bind
tightest first. -/
inductive Body (τ ρ : Type) where
  | plain (e : Expr τ ρ)
  | precedence (primaries operators : List (Expr τ ρ))

namespace Body

variable {τ ρ : Type}

/-- The expressions of a body in order. -/
def exprs : Body τ ρ → List (Expr τ ρ)
  | .plain e => [e]
  | .precedence primaries operators => primaries ++ operators

/-- Replace the terminals and the references, from left to right. -/
def resolve {ε τ' ρ' : Type} (terminalOf : τ → Except ε τ') (ruleOf : ρ → Except ε ρ') :
    Body τ ρ → Except ε (Body τ' ρ')
  | .plain e => (e.resolve terminalOf ruleOf).map .plain
  | .precedence primaries operators => do
      let primaries ← Expr.resolveList terminalOf ruleOf primaries
      let operators ← Expr.resolveList terminalOf ruleOf operators
      return .precedence primaries operators

/-- Whether the body can match without reading a token. One of the primaries has to. -/
def nullable (known : ρ → Bool) : Body τ ρ → Bool
  | .plain e => e.nullable known
  | .precedence primaries _ => Expr.anyNullable known primaries

/-- The rules that can be called before a token is read. Operators come first only behind a primary
that reads nothing. -/
def leftCalls (known : ρ → Bool) : Body τ ρ → List ρ
  | .plain e => e.leftCalls known
  | .precedence primaries operators =>
      Expr.leftCallsOfAlt known primaries ++
        if Expr.anyNullable known primaries then Expr.leftCallsOfAlt known operators else []

/-- Whether the body repeats something that can match without reading a token. Operators are
repeated. -/
def repeatsNullable (known : ρ → Bool) (b : Body τ ρ) : Bool :=
  b.exprs.any (·.repeatsNullable known) ||
    match b with
    | .plain _ => false
    | .precedence _ operators => Expr.anyNullable known operators

end Body

/-- A rule of a grammar. -/
structure Rule (τ ρ : Type) where
  name : String
  body : Body τ ρ

end Caret
