import Caret.Network.Reach

/-!
# `Caret.Lexer.Command`: commands of lexer rules

A lexer rule may carry commands that say what happens to the text it matched. In the network of a
lexer they are numbered edges. `Network.commandsFrom` finds the commands that a rule can come
across, and `LexerNetwork.isDefaultChannel` uses it to tell whether a token type stays on the
default channel.
-/

set_option autoImplicit false

namespace Caret

/-- The channel that a parser reads. -/
def defaultChannel : Int := 0

/-- The channel of text that a parser does not read but that is kept. -/
def hiddenChannel : Int := 1

/-- What a lexer rule does with the text it matched. -/
inductive Command where
  | channel (number : Int)
  | skip
  | more
  | type (tokenType : TokenType)
  | mode (index : Nat)
  | pushMode (index : Nat)
  | popMode
deriving DecidableEq

/-- Whether the command takes the text off the default channel. -/
def Command.leavesDefaultChannel : Command → Bool
  | .channel number => number != defaultChannel
  | .skip => true
  | _ => false

/-- The network of a lexer, with the token type of each rule and the table of commands. -/
structure LexerNetwork where
  network : Network
  tokenTypes : Array TokenType
  commands : Array Command
deriving DecidableEq

/-! ### Commands of a rule -/

/-- Where a state leads within its own rule: a call is stepped over. A stop state leads nowhere. -/
def State.inRule (s : State) : List StateId :=
  if s.kind = .ruleStop then []
  else s.edges.map fun
    | .call _ _ follow _ => follow
    | e => e.target

/-- The numbers of the commands on the edges of a state, last edge first. A stop state has none. -/
def State.commandIndices (s : State) : List Nat :=
  if s.kind = .ruleStop then []
  else s.edges.reverse.filterMap fun
    | .command _ index => some index
    | _ => none

/-- The numbers of the commands between a state and the end of its rule, each once, in the order of
a depth-first search. -/
def Network.commandsFrom (n : Network) (start : StateId) : List Nat :=
  ((n.reach State.inRule [start]).flatMap fun id =>
    ((n.state? id).map State.commandIndices).getD []).eraseDups

namespace LexerNetwork

/-- The first rule that yields a token type. -/
def ruleFor? (l : LexerNetwork) (tokenType : TokenType) : Option RuleIndex :=
  l.tokenTypes.findIdx? (· == tokenType)

/-- Whether no command of the first rule for a token type leaves the default channel. A token type
without a rule is on the default channel. -/
def isDefaultChannel (l : LexerNetwork) (tokenType : TokenType) : Bool :=
  match (l.ruleFor? tokenType).bind l.network.start? with
  | none => true
  | some start =>
      !((l.network.commandsFrom start).filterMap (l.commands[·]?)).any
        Command.leavesDefaultChannel

end LexerNetwork

end Caret
