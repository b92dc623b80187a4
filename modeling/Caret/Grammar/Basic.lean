import Caret.Grammar.Compile
import Caret.Grammar.LeftRecursion
import Caret.Grammar.Source

/-!
# `Caret.Grammar.Basic`: grammars

`Source.build` turns a grammar as it is written into a parser network, names, and a lexer. It first
checks that names are defined, and defined once, and that no rule can go round without reading a
token: no repeated part matches the empty text, and no rule calls itself before it reads a token.
-/

set_option autoImplicit false

namespace Caret

/-- A parser network with the names of its rules and token types. -/
structure Recognizer where
  network : Network
  ruleNames : Array String
  vocabulary : Vocabulary

/-- A grammar that is ready for use: its rules with names resolved, what they compile to, and its
lexer. -/
structure Grammar where
  rules : List (Rule Label RuleIndex)
  recognizer : Recognizer
  lexer : Lexer

/-- The position of a rule. -/
def Grammar.ruleIndex? (g : Grammar) (name : String) : Option RuleIndex :=
  g.recognizer.ruleNames.findIdx? (· == name)

/-- The first name that is among the names before it, or among those in `seen`. -/
def firstRepeated? (seen : List String) : List String → Option String
  | [] => none
  | name :: rest => if name ∈ seen then some name else firstRepeated? (name :: seen) rest

namespace Source

/-- Check that there are rules, and that no name is given twice. -/
def checkNames (s : Source) : Except GrammarError Unit :=
  if s.rules.isEmpty then .error .emptyGrammar
  else
    match firstRepeated? [] (s.rules.map Rule.name) with
    | some name => .error (.duplicateRule name)
    | none =>
        match firstRepeated? [] (s.lexerRules.map LexerRule.name) with
        | some name => .error (.duplicateToken name)
        | none => .ok ()

/-- Check that no rule can go round without reading a token. -/
def checkLoops (rules : List (Rule Label RuleIndex)) : Except GrammarError Unit :=
  let known := nullableRules rules
  match rules.find? fun r => r.body.repeatsNullable (marked known) with
  | some r => .error (.nullableClosure r.name)
  | none =>
      match leftCycles rules known with
      | [] => .ok ()
      | cycles =>
          .error (.leftRecursion (cycles.map fun cycle =>
            cycle.filterMap fun i => (rules[i]?).map Rule.name))

/-- The rules with names resolved, if nothing is wrong with them. -/
def check (s : Source) : Except GrammarError (List (Rule Label RuleIndex)) := do
  s.checkNames
  let rules ← s.resolve
  -- Loops are looked for by positions, so names are resolved before.
  checkLoops rules
  return rules

/-- The grammar, if nothing is wrong with it. -/
def build (s : Source) : Except GrammarError Grammar := do
  let rules ← s.check
  let numbering := s.numbering
  return {
    rules
    recognizer := {
      network := .ofRules rules numbering.size
      ruleNames := (s.rules.map Rule.name).toArray
      vocabulary := numbering.vocabulary }
    lexer := .ofRules numbering.allRules }

end Source

end Caret
