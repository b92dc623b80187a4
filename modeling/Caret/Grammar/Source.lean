import Caret.Grammar.Expr
import Caret.Grammar.Vocabulary
import Caret.Lexer.Basic

/-!
# `Caret.Grammar.Source`: grammars as they are written

A grammar is written as parser rules over literals and token names, and lexer rules. Literals that
are not the pattern of a lexer rule are implicit tokens: they come before the lexer rules, in the
order in which the parser rules first use them. `Source.resolve` replaces every name by its number
and reports the first one that has none.
-/

set_option autoImplicit false

namespace Caret

/-- A single token in a parser rule. -/
inductive Symbol where
  | literal (text : String)
  | token (name : String)
  | endOfInput

/-- A token in a parser rule: a certain one, one of some, any but some, or any. -/
inductive Terminal where
  | one (s : Symbol)
  | oneOf (symbols : List Symbol)
  | noneOf (symbols : List Symbol)
  | any

/-- The texts of the literals in a terminal. -/
def Terminal.literals : Terminal → List String
  | .one s => texts [s]
  | .oneOf symbols => texts symbols
  | .noneOf symbols => texts symbols
  | .any => []
where
  texts (symbols : List Symbol) : List String :=
    symbols.filterMap fun
      | .literal text => some text
      | _ => none

/-- What is wrong with a grammar. -/
inductive GrammarError where
  | emptyGrammar
  | undefinedRule (rule name : String)
  | undefinedToken (rule name : String)
  | duplicateRule (name : String)
  | duplicateToken (name : String)
  | emptyLiteral (rule : String)
  | nullableClosure (rule : String)
  | leftRecursion (cycles : List (List String))
deriving DecidableEq

/-- The wording of a grammar error. -/
def GrammarError.message : GrammarError → String
  | .emptyGrammar => "grammar defines no parser rules"
  | .undefinedRule rule name => "rule '" ++ rule ++ "' references undefined rule '" ++ name ++ "'"
  | .undefinedToken rule name => "rule '" ++ rule ++ "' references undefined token '" ++ name ++ "'"
  | .duplicateRule name => "rule '" ++ name ++ "' is defined more than once"
  | .duplicateToken name => "token '" ++ name ++ "' is defined more than once"
  | .emptyLiteral rule => "rule '" ++ rule ++ "' uses an empty literal"
  | .nullableClosure rule =>
      "rule '" ++ rule ++ "' repeats a block that can match the empty string"
  | .leftRecursion cycles =>
      "left recursion through " ++ "; ".intercalate (cycles.map (" -> ".intercalate ·))

/-- A grammar as it is written. -/
structure Source where
  rules : List (Rule Terminal String)
  lexerRules : List LexerRule

/-! ### Numbering of tokens -/

/-- The tokens of a grammar in the order of their types, which start at one: implicit literals, then
lexer rules. -/
structure Numbering where
  literals : List String
  lexerRules : List LexerRule

namespace Numbering

/-- The number of token types. -/
def size (n : Numbering) : Nat := n.literals.length + n.lexerRules.length

/-- The token type of a literal: its own, or that of the first lexer rule with this pattern. -/
def literalType? (n : Numbering) (text : String) : Option TokenType :=
  match n.literals.idxOf? text with
  | some i => some (i + 1)
  | none =>
      (n.lexerRules.findIdx? fun r => r.pattern.literal? = some text).map fun i =>
        n.literals.length + i + 1

/-- The token type of a lexer rule. -/
def tokenType? (n : Numbering) (name : String) : Option TokenType :=
  (n.lexerRules.findIdx? fun r => r.name = name).map fun i => n.literals.length + i + 1

/-- The names of the token types. -/
def vocabulary (n : Numbering) : Vocabulary where
  literalNames :=
    -- No token has type zero.
    (none :: n.literals.map (fun text => some (quoted text)) ++
      n.lexerRules.map fun (r : LexerRule) => r.pattern.literal?.map quoted).toArray
  symbolicNames :=
    (none :: n.literals.map (fun _ => none) ++
      n.lexerRules.map fun (r : LexerRule) => some r.name).toArray

/-- The rules of the lexer, in the order of their token types. -/
def allRules (n : Numbering) : List LexerRule :=
  (n.literals.mapIdx fun i text => .ofPattern ("T__" ++ toString i) (.literal text)) ++
    n.lexerRules

end Numbering

namespace Source

/-- The texts of all literals in the parser rules, in order. -/
def literals (s : Source) : List String :=
  s.rules.flatMap fun r => r.body.exprs.flatMap fun e => e.nodes.flatMap fun
    | .terminal t => t.literals
    | _ => []

/-- The numbering of the tokens. -/
def numbering (s : Source) : Numbering where
  -- The first use of a literal counts.
  literals := (s.literals.filter fun text =>
    !s.lexerRules.any fun r => r.pattern.literal? = some text).eraseDups
  lexerRules := s.lexerRules

/-! ### Resolving names -/

/-- The token type of a symbol in a rule. -/
def tokenTypeOf (n : Numbering) (rule : String) : Symbol → Except GrammarError TokenType
  | .literal text =>
      if text.isEmpty then .error (.emptyLiteral rule)
      else
        match n.literalType? text with
        | some t => .ok t
        | none => .error (.undefinedToken rule (quoted text))
  | .token name =>
      match n.tokenType? name with
      | some t => .ok t
      | none => .error (.undefinedToken rule name)
  | .endOfInput => .ok Caret.endOfInput

/-- The label of a terminal in a rule. -/
def labelOf (n : Numbering) (rule : String) : Terminal → Except GrammarError Label
  | .one s => (tokenTypeOf n rule s).map .symbol
  | .oneOf symbols => (symbols.mapM (tokenTypeOf n rule)).map fun ts => .oneOf (.ofList ts)
  | .noneOf symbols => (symbols.mapM (tokenTypeOf n rule)).map fun ts => .noneOf (.ofList ts)
  | .any => .ok .any

/-- The position of the rule that a rule refers to. -/
def ruleOf (names : List String) (rule : String) (name : String) :
    Except GrammarError RuleIndex :=
  match names.idxOf? name with
  | some i => .ok i
  | none => .error (.undefinedRule rule name)

/-- The rules with numbers in place of names. -/
def resolve (s : Source) : Except GrammarError (List (Rule Label RuleIndex)) :=
  let numbering := s.numbering
  let names := s.rules.map Rule.name
  s.rules.mapM fun r =>
    (r.body.resolve (labelOf numbering r.name) (ruleOf names r.name)).map fun body =>
      ⟨r.name, body⟩

end Source

end Caret
