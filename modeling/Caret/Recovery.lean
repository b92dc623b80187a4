import Caret.Network.Edge

/-!
# `Caret.Recovery`: going on behind text that does not fit

A recovery rule says what to do when a rule was entered and nothing came of it: look for a token
further on, and from there either enter a rule or go on behind the rule that failed.
-/

set_option autoImplicit false

namespace Caret

/-- Where to go on once the token is found. -/
inductive RecoveryTarget where
  | goToRule (rule : RuleIndex)
  | finishRule
deriving DecidableEq

/-- The text of a target. -/
def RecoveryTarget.render : RecoveryTarget → String
  | .goToRule rule => "rule " ++ toString rule
  | .finishRule => "finish"

/-- If `inRule` fails, look for `token` and go on at `target`: at the token, or behind it if
`skipOne` is set. Unless `nested` is set, not within text that was recovered before. -/
structure RecoveryRule where
  inRule : RuleIndex
  token : TokenType
  target : RecoveryTarget
  skipOne : Bool
  nested : Bool
deriving DecidableEq

namespace RecoveryRule

/-- Go on in a rule, at the token. -/
def goToRule (inRule : RuleIndex) (token : TokenType) (rule : RuleIndex) : RecoveryRule :=
  ⟨inRule, token, .goToRule rule, false, true⟩

/-- Go on behind the rule that failed, at the token. -/
def finishRule (inRule : RuleIndex) (token : TokenType) : RecoveryRule :=
  ⟨inRule, token, .finishRule, false, true⟩

/-- The text of a recovery rule. -/
def render (r : RecoveryRule) : String :=
  "in rule " ++ toString r.inRule ++ " find token " ++ toString r.token ++ " then " ++
    r.target.render

end RecoveryRule

/-- How often a recovery rule was used. -/
structure RecoveryCount where
  rule : RecoveryRule
  attempts : Nat
deriving DecidableEq

/-- How often recovery rules were used, in the order of first use. -/
structure RecoveryStats where
  counts : List RecoveryCount
deriving DecidableEq

namespace RecoveryStats

/-- No rule was used. -/
def empty : RecoveryStats := ⟨[]⟩

/-- Count one more use of a rule. -/
def recordIn (r : RecoveryRule) : List RecoveryCount → List RecoveryCount
  | [] => [⟨r, 1⟩]
  | c :: rest =>
      if c.rule = r then { c with attempts := c.attempts + 1 } :: rest else c :: recordIn r rest

/-- Count one more use of a rule. -/
def record (s : RecoveryStats) (r : RecoveryRule) : RecoveryStats := ⟨recordIn r s.counts⟩

/-- How often a rule was used. -/
def attempts (s : RecoveryStats) (r : RecoveryRule) : Nat :=
  ((s.counts.find? fun c => c.rule = r).map RecoveryCount.attempts).getD 0

/-- How often any rule was used. The sum must be an unsigned 64-bit number. -/
def total? (s : RecoveryStats) : Except Overflow Nat :=
  (s.counts.map RecoveryCount.attempts).foldlM (natAdd nat64Max) 0

/-- Whether no rule was used. -/
def isEmpty (s : RecoveryStats) : Bool := s.counts.isEmpty

/-- The text of the statistics. -/
def render (s : RecoveryStats) : String :=
  if s.isEmpty then "no recoveries"
  else ", ".intercalate (s.counts.map fun c =>
    "[" ++ c.rule.render ++ "]: " ++ toString c.attempts)

end RecoveryStats

end Caret
