import Caret.Network.Edge

/-!
# `Caret.Candidate`: what can come next, and where

A candidate is a token type or a rule, together with the chains of rules in which it can come next.
A traversal finds candidates one chain at a time. `merge` gathers the chains of each token type and
each rule.
-/

set_option autoImplicit false

namespace Caret

/-- What is suggested: a token, or a rule as a whole. -/
inductive SuggestionId where
  | token (tokenType : TokenType)
  | rule (index : RuleIndex)
deriving DecidableEq, Hashable

/-- The rules that are open at some point, outermost first. -/
abbrev Chain := List RuleIndex

/-- Something that can come next, with the chains of rules it was found in. -/
structure Candidate where
  id : SuggestionId
  contexts : List Chain
deriving DecidableEq

namespace Candidate

/-- Add the contexts of `other` that are not there yet, in order. -/
def absorb (c other : Candidate) : Candidate :=
  ⟨c.id, other.contexts.foldl
    (fun contexts chain => if chain ∈ contexts then contexts else contexts ++ [chain])
    c.contexts⟩

/-- Join a candidate with the one of the same id, or put it last. -/
def insert (c : Candidate) : List Candidate → List Candidate
  | [] => [c]
  | d :: rest => if d.id = c.id then d.absorb c :: rest else d :: insert c rest

end Candidate

/-- Join the candidates of one id. Ids and contexts stay in the order in which they come first. -/
def merge (cs : List Candidate) : List Candidate :=
  cs.foldl (fun merged c => c.insert merged) []

end Caret
