import Caret.Traversal.Machine

/-!
# `Caret.Traversal.Basic`: traversals of a network

`traverse` runs the machine from the start of a rule. A network may send it round for ever, so the
number of steps is limited, and a traversal that needs more gives no answer. Whether a rule can be
passed without reading a token is found by a traversal of that rule in front of nothing but the
caret, and so is the table of first tokens.
-/

set_option autoImplicit false

namespace Caret

/-- What a traversal found. -/
structure Traversal where
  /-- The candidates in the order in which they were found, with one chain each. -/
  found : List Candidate
  /-- Whether the first rule can be complete with all tokens read. -/
  reachedEnd : Bool
  stats : RecoveryStats
deriving DecidableEq

namespace Traversal

/-- Nothing was found. -/
def empty : Traversal := ⟨[], false, .empty⟩

/-- What a machine has found. -/
def ofMachine (m : Machine) : Traversal := ⟨m.found.toList, m.reachedEnd, m.stats⟩

/-- Traverse a network in a setting. A rule that does not exist leads to nothing. -/
def run (s : Setting) (limit : Nat) (rule : RuleIndex) : Except Halt Traversal :=
  match s.network.start? rule with
  | none => .ok empty
  | some start => (Machine.run s limit (.start rule start)).map ofMachine

/-- Traverse a rule in front of nothing but the caret, without any options. No rule is reported as a
whole, so nullability is never asked for. -/
def atStart (n : Network) (limit : Nat) (rule : RuleIndex) : Except Halt Traversal :=
  run ⟨n, .caretOnly, .none, fun _ => .ok false⟩ limit rule

end Traversal

/-- The table of first tokens of a network. -/
def FirstTokens.ofNetwork (n : Network) (limit : Nat) : Except Halt FirstTokens := do
  let entries ← (List.range n.ruleCount).mapM fun rule => do
    let t ← Traversal.atStart n limit rule
    return (⟨merge t.found, t.reachedEnd⟩ : RuleStart)
  return ⟨entries.toArray⟩

/-- Whether each rule can be passed without reading a token. An answer is computed when it is first
asked for. -/
def nullabilities (n : Network) (limit : Nat) : Array (Thunk (Except Halt Bool)) :=
  ((List.range n.ruleCount).map fun rule =>
    Thunk.mk fun _ => (Traversal.atStart n limit rule).map Traversal.reachedEnd).toArray

/-- The setting of a traversal with options. A table of first tokens also tells which rules can be
passed. -/
def Setting.ofOptions (n : Network) (stream : TokenStream) (options : Options) (limit : Nat) :
    Setting where
  network := n
  stream
  options
  nullable :=
    match options.firstTokens with
    | some f => fun rule => .ok (f.isNullable rule)
    | none =>
        -- The table stands outside of the function, so that an answer is computed only once.
        let table := nullabilities n limit
        fun rule => match table[rule]? with
          | some answer => answer.get
          | none => .ok false

/-- Explore a network from the start of a rule, over the tokens in front of the caret. -/
def traverse (n : Network) (stream : TokenStream) (options : Options) (limit : Nat)
    (rule : RuleIndex) : Except Halt Traversal :=
  Traversal.run (.ofOptions n stream options limit) limit rule

end Caret
