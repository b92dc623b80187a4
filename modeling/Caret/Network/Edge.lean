import Caret.IntervalSet

/-!
# `Caret.Network.Edge`: labels and edges

A network reads symbols, which are token types in a parser and code points in a lexer. An edge
either reads one symbol that its label admits, or reads nothing and does something else: it moves
on, tests a precedence level, calls a rule, or runs a command.
-/

set_option autoImplicit false

namespace Caret

/-- The number of a token type. -/
abbrev TokenType := Int

/-- The position of a rule in its network. -/
abbrev RuleIndex := Nat

/-- The position of a state in its network. -/
abbrev StateId := Nat

/-- The token type of the end of the input. -/
def endOfInput : TokenType := -1

/-- The least token type that a grammar hands out. -/
def firstTokenType : TokenType := 1

/-- The symbols that a label without a list of its own ranges over: `low` to `high`. -/
structure Universe where
  low : Int
  high : Int

/-- Whether a symbol is in the universe. -/
def Universe.contains (u : Universe) (symbol : Int) : Bool :=
  decide (u.low ≤ symbol) && decide (symbol ≤ u.high)

/-- The symbols that an edge reads. -/
inductive Label where
  | symbol (value : Int)
  | oneOf (set : IntervalSet)
  | noneOf (set : IntervalSet)
  | any
deriving DecidableEq

namespace Label

/-- Whether the label admits a symbol. Only `noneOf` and `any` look at the universe. -/
def admits (u : Universe) : Label → Int → Bool
  | .symbol value, s => decide (value = s)
  | .oneOf set, s => set.contains s
  | .noneOf set, s => u.contains s && !set.contains s
  | .any, s => u.contains s

/-- The symbols of the label as a set. A stored set is handed out as it is. -/
def symbols (u : Universe) : Label → Except Overflow IntervalSet
  | .symbol value => IntervalSet.ofValue? value
  | .oneOf set => .ok set
  | .noneOf set => set.complement? u.low u.high
  | .any => IntervalSet.closed? u.low u.high

end Label

/-- An edge to `target`. -/
inductive Edge where
  /-- Move on. -/
  | epsilon (target : StateId)
  /-- Move on if the rule was entered at this level or a lower one. -/
  | gate (target : StateId) (level : Int)
  /-- Enter `rule` at its start state `target` and, when it is done, go on at `follow`. -/
  | call (target : StateId) (rule : RuleIndex) (follow : StateId) (level : Int)
  /-- Move on, noting the command with this number. -/
  | command (target : StateId) (index : Nat)
  /-- Read a symbol. -/
  | read (target : StateId) (label : Label)
deriving DecidableEq

namespace Edge

/-- The state the edge leads to. -/
def target : Edge → StateId
  | .epsilon t => t
  | .gate t _ => t
  | .call t _ _ _ => t
  | .command t _ => t
  | .read t _ => t

/-- The label of an edge that reads a symbol. -/
def label? : Edge → Option Label
  | .read _ label => some label
  | _ => none

/-- Whether the edge reads nothing. -/
def isEpsilon (e : Edge) : Bool := e.label?.isNone

/-- Whether the edge reads the symbol. -/
def admits (u : Universe) (e : Edge) (symbol : Int) : Bool :=
  e.label?.any (·.admits u symbol)

/-- The symbols that the edge reads, as a set. An edge that reads nothing has no such set. -/
def symbols? (u : Universe) (e : Edge) : Except Overflow (Option IntervalSet) :=
  match e.label? with
  | none => .ok none
  | some l => (l.symbols u).map some

/-- The symbols of an edge that reads are those of its label. -/
@[simp] theorem symbols?_read (u : Universe) (target : StateId) (label : Label) :
    symbols? u (.read target label) = (label.symbols u).map some := rfl

end Edge

end Caret
