import Caret.Candidate

/-!
# `Caret.Traversal.FirstTokens`: what each rule can start with

For each rule of a network the table holds the candidates at the start of the rule, with chains that
begin at the rule itself, and whether the rule can be passed without reading a token.
-/

set_option autoImplicit false

namespace Caret

/-- What a rule can start with. -/
structure RuleStart where
  candidates : List Candidate
  nullable : Bool

/-- Whether the rule can start with a token type. -/
def RuleStart.startsWith (r : RuleStart) (tokenType : TokenType) : Bool :=
  r.candidates.any fun c => c.id = .token tokenType

/-- What each rule can start with. -/
structure FirstTokens where
  entries : Array RuleStart

namespace FirstTokens

/-- The table without entries. -/
def empty : FirstTokens := ⟨#[]⟩

/-- The entry of a rule. -/
def entry? (f : FirstTokens) (rule : RuleIndex) : Option RuleStart := f.entries[rule]?

/-- Whether entering a rule in front of a token type may lead on. Nothing is known against a rule
without an entry. -/
def mayStartWith (f : FirstTokens) (rule : RuleIndex) (tokenType : TokenType) : Bool :=
  match f.entry? rule with
  | some r => r.nullable || r.startsWith tokenType
  | none => true

/-- Whether the table says that a rule can be passed without reading a token. -/
def isNullable (f : FirstTokens) (rule : RuleIndex) : Bool :=
  (f.entry? rule).any RuleStart.nullable

/-- Cut a finding at the outermost rule that is to be reported: that rule is found in its place. -/
def cut (reported : List RuleIndex) (id : SuggestionId) (chain : Chain) : SuggestionId × Chain :=
  match id with
  -- The table is made without rules to report, so this does not occur in one that comes from a
  -- network.
  | .rule _ => (id, chain)
  | .token _ =>
      match chain.dropWhile (· ∉ reported) with
      | rule :: _ => (.rule rule, chain.takeWhile (· ∉ reported))
      | [] => (id, chain)

/-- The candidates at the start of a rule that is entered below the rules of `outer`. -/
def splice (f : FirstTokens) (reported : List RuleIndex) (outer : Chain) (rule : RuleIndex) :
    List Candidate :=
  match f.entry? rule with
  | none => []
  | some r => r.candidates.flatMap fun c => c.contexts.map fun chain =>
      let found := cut reported c.id chain
      ⟨found.1, [outer ++ found.2]⟩

end FirstTokens

end Caret
