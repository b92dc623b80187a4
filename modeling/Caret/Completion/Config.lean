import Caret.Recovery

/-!
# `Caret.Completion.Config`: how to complete
-/

set_option autoImplicit false

namespace Caret

/-- A set of rules: their positions in ascending order, each once. -/
abbrev RuleSet := List RuleIndex

/-- Add a rule to a set. -/
def RuleSet.insert (rule : RuleIndex) : RuleSet → RuleSet
  | [] => [rule]
  | r :: rest =>
      if rule < r then rule :: r :: rest
      else if rule = r then r :: rest
      else r :: RuleSet.insert rule rest

/-- Add rules to a set. -/
def RuleSet.insertAll (s : RuleSet) (rules : List RuleIndex) : RuleSet :=
  rules.foldl (fun s rule => RuleSet.insert rule s) s

/-- How to complete. -/
structure Config where
  /-- Leave out tokens that the lexer may take off the default channel. -/
  ignoreOffChannel : Bool
  /-- The rule that the input is an instance of. -/
  initialRule : RuleIndex
  /-- The rules that are suggested as a whole. -/
  reported : RuleSet
  recovery : List RecoveryRule
  /-- Let the parser see the tokens that are off the default channel. -/
  includeOffChannel : Bool
  /-- Prepare a table of first tokens. -/
  useFirstTokens : Bool
deriving DecidableEq

/-- The configuration when nothing is said. -/
def Config.default : Config where
  ignoreOffChannel := false
  initialRule := 0
  reported := []
  recovery := []
  includeOffChannel := false
  useFirstTokens := true

end Caret
