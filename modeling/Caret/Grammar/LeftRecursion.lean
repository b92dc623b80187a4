import Caret.Grammar.Expr
import Caret.Network.Reach

/-!
# `Caret.Grammar.LeftRecursion`: rules that can match nothing, and rules that call themselves first

`nullableRules` marks the rules that can match without reading a token. It passes over all rules
again and again, until a pass has marked nothing. `leftCycles` searches the calls that can happen
before a token is read, depth first, and lists a cycle for each call that leads back to a rule on
the current path.
-/

set_option autoImplicit false

namespace Caret

variable {τ : Type}

/-- Whether a table marks a position. -/
def marked (table : Array Bool) (i : Nat) : Bool := table[i]?.getD false

/-- Look at rules one after the other. A rule is marked if it was not yet and its body can match
without reading a token, as far as is known. The mark counts for the rules behind it, and the flag
tells in the end whether there was one. -/
def passOver (known : Array Bool) (changed : Bool) :
    List (Rule τ RuleIndex × RuleIndex) → Array Bool × Bool
  | [] => (known, changed)
  | (rule, i) :: rest =>
      if known[i]? = some false ∧ rule.body.nullable (marked known) then
        passOver (known.setIfInBounds i true) true rest
      else passOver known changed rest

/-- Look at every rule once, in order. -/
def nullablePass (rules : List (Rule τ RuleIndex)) (known : Array Bool) : Array Bool × Bool :=
  passOver known false rules.zipIdx

/-- A pass only adds marks. -/
theorem count_passOver_le (known : Array Bool) (changed : Bool)
    (entries : List (Rule τ RuleIndex × RuleIndex)) :
    (passOver known changed entries).1.count false ≤ known.count false := by
  fun_induction passOver known changed entries with
  | case1 => exact Nat.le_refl _
  | case2 known changed rule i rest hmark ih =>
      exact Nat.le_trans ih (Nat.le_of_lt (count_false_set_lt known i hmark.1))
  | case3 known changed rule i rest hno ih => exact ih

/-- A pass that raises its flag leaves fewer rules unmarked. -/
theorem count_passOver_lt {known table : Array Bool} {entries : List (Rule τ RuleIndex × RuleIndex)}
    (h : passOver known false entries = (table, true)) : table.count false < known.count false := by
  induction entries with
  | nil => cases h
  | cons entry rest ih =>
      rw [passOver] at h
      split at h
      next hmark =>
        have hle := count_passOver_le (known.setIfInBounds entry.2 true) true rest
        rw [h] at hle
        exact Nat.lt_of_le_of_lt hle (count_false_set_lt known entry.2 hmark.1)
      next => exact ih h

/-- Mark rules that can match without reading a token, pass by pass, until a pass finds none. -/
def markNullable (rules : List (Rule τ RuleIndex)) (known : Array Bool) : Array Bool :=
  match _h : nullablePass rules known with
  | (table, true) => markNullable rules table
  | (table, false) => table
termination_by known.count false
decreasing_by exact count_passOver_lt ‹_›

/-- For each rule, whether it can match without reading a token. -/
def nullableRules (rules : List (Rule τ RuleIndex)) : Array Bool :=
  markNullable rules (Array.replicate rules.length false)

/-! ### Cycles -/

/-- The part of a path from a rule on, and back to it. The path is given innermost first. -/
def closeCycle (path : List RuleIndex) (callee : RuleIndex) : List RuleIndex :=
  callee :: (path.takeWhile (· ≠ callee)).reverse ++ [callee]

/-- The rules on a path and the calls that are still to be looked at, counted together. -/
def pathSize (path : List (RuleIndex × List RuleIndex)) : Nat :=
  path.foldr (fun entry n => entry.2.length + 1 + n) 0

/-- The cycles that a depth-first search finds, and the rules it has come to. The path holds the
rules that are being searched, innermost first, each with the calls that are still to be looked
at. -/
def cyclesFrom (calls : RuleIndex → List RuleIndex) (seen : Array Bool)
    (path : List (RuleIndex × List RuleIndex)) : Array Bool × List (List RuleIndex) :=
  match path with
  | [] => (seen, [])
  | (_, []) :: above => cyclesFrom calls seen above
  | (rule, callee :: rest) :: above =>
      if seen[callee]? = some false then
        cyclesFrom calls (seen.setIfInBounds callee true)
          ((callee, calls callee) :: (rule, rest) :: above)
      else
        -- A call back into the path closes a cycle, a call of another rule that was seen does not.
        let found := cyclesFrom calls seen ((rule, rest) :: above)
        let names := rule :: above.map Prod.fst
        if callee ∈ names then (found.1, closeCycle names callee :: found.2) else found
termination_by (seen.count false, pathSize path)
decreasing_by
  · exact Prod.Lex.right _ (by simp [pathSize])
  · exact Prod.Lex.left _ _ (count_false_set_lt seen callee ‹_›)
  · exact Prod.Lex.right _ (by simp [pathSize])

/-- The cycles that searches from the given rules find. A rule that an earlier search came to is
passed over. -/
def cyclesFromAll (calls : RuleIndex → List RuleIndex) :
    List RuleIndex → Array Bool → List (List RuleIndex)
  | [], _ => []
  | root :: roots, seen =>
      if seen[root]? = some false then
        let found := cyclesFrom calls (seen.setIfInBounds root true) [(root, calls root)]
        found.2 ++ cyclesFromAll calls roots found.1
      else cyclesFromAll calls roots seen

/-- The rules that a rule can call before a token is read. -/
def leftCallsOf (rules : List (Rule τ RuleIndex)) (known : Array Bool) (rule : RuleIndex) :
    List RuleIndex :=
  match rules[rule]? with
  | some r => r.body.leftCalls (marked known)
  | none => []

/-- The cycles of calls that can happen before a token is read. -/
def leftCycles (rules : List (Rule τ RuleIndex)) (known : Array Bool) : List (List RuleIndex) :=
  cyclesFromAll (leftCallsOf rules known) (List.range rules.length)
    (Array.replicate rules.length false)

end Caret
