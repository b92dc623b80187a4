import Caret.Completion.Config
import Caret.Grammar.Basic
import Caret.Traversal.Basic

/-!
# `Caret.Completion.Basic`: completing an input

`Recognizer.complete` splits the input into tokens, explores the parser network up to the caret
behind them, and names what it found. Suggestions come in the order in which they were found first,
each with the chains of rules it was found in.
-/

set_option autoImplicit false

namespace Caret

/-- Something that can come next, with names. -/
structure Suggestion where
  id : SuggestionId
  name : String
  /-- The rules that are open where it can come next, outermost first. -/
  contexts : List (List String)
deriving DecidableEq

namespace Suggestion

/-- Whether a rule is suggested as a whole. -/
def isRule (s : Suggestion) : Bool :=
  match s.id with
  | .rule _ => true
  | .token _ => false

/-- The token type of a suggested token. -/
def tokenType? (s : Suggestion) : Option TokenType :=
  match s.id with
  | .token t => some t
  | .rule _ => none

/-- The position of a suggested rule. -/
def rule? (s : Suggestion) : Option RuleIndex :=
  match s.id with
  | .rule r => some r
  | .token _ => none

/-- Whether the suggestion was found below exactly these rules. -/
def hasContext (s : Suggestion) (chain : List String) : Bool := s.contexts.contains chain

/-- The text of a suggestion. -/
def render (s : Suggestion) : String := s.name

end Suggestion

/-- What can come next, and which recovery rules were used to find it. -/
structure Completion where
  suggestions : List Suggestion
  stats : RecoveryStats
deriving DecidableEq

namespace Completion

/-- The names of the suggestions. -/
def names (c : Completion) : List String := c.suggestions.map Suggestion.name

/-- Whether there are no suggestions. -/
def isEmpty (c : Completion) : Bool := c.suggestions.isEmpty

/-- The first suggestion with a name. -/
def get? (c : Completion) (name : String) : Option Suggestion :=
  c.suggestions.find? fun s => s.name = name

end Completion

/-- Why there is no completion. -/
inductive CompletionError where
  | lexical (e : LexicalError)
  | invalidInitialRule (rule : RuleIndex)
  | halted (cause : Halt)
deriving DecidableEq

/-- The wording of an unusable initial rule. -/
def invalidInitialRuleMessage (rule : RuleIndex) : String :=
  "unexpected starting rule: " ++ toString rule

namespace Recognizer

/-- The name of a rule. A rule without a name is called by its position. -/
def ruleName (r : Recognizer) (rule : RuleIndex) : String :=
  r.ruleNames[rule]?.getD ("<rule " ++ toString rule ++ ">")

/-- A candidate with names. -/
def suggestion (r : Recognizer) (c : Candidate) : Suggestion where
  id := c.id
  name := match c.id with
    | .token t => r.vocabulary.displayName t
    | .rule rule => r.ruleName rule
  contexts := c.contexts.map fun chain => chain.map r.ruleName

/-- The tokens that the parser sees. -/
def stream (config : Config) (tokens : List Token) : TokenStream :=
  ⟨((tokens.filter fun t => config.includeOffChannel || t.isDefaultChannel).map
    Token.tokenType).toArray⟩

/-- Whether a candidate is suggested. -/
def wanted (source : TokenSource) (config : Config) (c : Candidate) : Bool :=
  match c.id with
  | .token t => !config.ignoreOffChannel || source.network.isDefaultChannel t
  | .rule _ => true

/-- What the configured traversal finds behind the tokens. -/
def traverse (r : Recognizer) (config : Config) (limit : Nat) (tokens : List Token) :
    Except Halt Traversal := do
  let firstTokens ←
    if config.useFirstTokens then (FirstTokens.ofNetwork r.network limit).map some else .ok none
  Caret.traverse r.network (stream config tokens) ⟨config.reported, config.recovery, firstTokens⟩
    limit config.initialRule

/-- What can come next behind an input. Each traversal may take `limit` steps. -/
def complete (r : Recognizer) (source : TokenSource) (config : Config) (limit : Nat)
    (input : String) : Except CompletionError Completion :=
  match source.tokenize input with
  | .error e => .error (.lexical e)
  | .ok tokens =>
      -- The input is split first, so a lexical error comes before an unusable initial rule.
      if (r.network.start? config.initialRule).isNone then
        .error (.invalidInitialRule config.initialRule)
      else
        match r.traverse config limit tokens with
        | .error cause => .error (.halted cause)
        | .ok t =>
            .ok ⟨((merge t.found).filter (wanted source config)).map r.suggestion, t.stats⟩

end Recognizer

/-- What can come next behind an input of a grammar. -/
def Grammar.complete (g : Grammar) (config : Config) (limit : Nat) (input : String) :
    Except CompletionError Completion :=
  g.recognizer.complete g.lexer.source config limit input

end Caret
