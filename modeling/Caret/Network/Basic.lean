import Caret.Network.Edge

/-!
# `Caret.Network.Basic`: recursive transition networks

A network is a table of states with ordered edges, and for each rule a start state and a stop
state. States are found by their position in the table. A network is built by adding rules, states
and edges. Adding a call also adds the edge that returns from the called rule, so that the stop
state of a rule has one edge for each call of the rule.

The number of a state is its position. A network that is built from outside hands numbers out, and
these stop at the greatest unsigned 32-bit number: `addStateCapped` and `addRuleCapped` are
`addState` and `addRule` with such numbers.
-/

set_option autoImplicit false

namespace Caret

/-- The role of a state. -/
inductive StateKind where
  | basic
  | decision
  | ruleStart
  | ruleStop
deriving DecidableEq

/-- A state with its outgoing edges in order of preference. -/
structure State where
  id : StateId
  rule : RuleIndex
  kind : StateKind
  edges : List Edge
deriving DecidableEq

/-- A recursive transition network. -/
structure Network where
  states : Array State
  starts : Array StateId
  stops : Array StateId
  maxTokenType : TokenType
deriving DecidableEq

namespace Network

/-- The network without rules, over the token types up to `maxTokenType`. -/
def empty (maxTokenType : TokenType) : Network := ⟨#[], #[], #[], maxTokenType⟩

/-- The token types that a label ranges over. -/
def alphabet (n : Network) : Universe := ⟨firstTokenType, n.maxTokenType⟩

/-- The number of rules. -/
def ruleCount (n : Network) : Nat := n.starts.size

/-- The state at a position. -/
def state? (n : Network) (id : StateId) : Option State := n.states[id]?

/-- The start state of a rule. -/
def start? (n : Network) (rule : RuleIndex) : Option StateId := n.starts[rule]?

/-- The stop state of a rule. -/
def stop? (n : Network) (rule : RuleIndex) : Option StateId := n.stops[rule]?

/-! ### Building -/

/-- The position that the next state gets. -/
def nextId (n : Network) : StateId := n.states.size

/-- Add a state without edges, at position `nextId`. -/
def addState (n : Network) (rule : RuleIndex) (kind : StateKind) : Network :=
  { n with states := n.states.push ⟨n.nextId, rule, kind, []⟩ }

/-- Add a rule with a start and a stop state. It gets the position `ruleCount`. -/
def addRule (n : Network) : Network :=
  let rule := n.ruleCount
  let start := n.nextId
  let grown := (n.addState rule .ruleStart).addState rule .ruleStop
  { grown with starts := grown.starts.push start, stops := grown.stops.push (start + 1) }

/-- The number that is handed out for the next state. It is the position of the state, but it stops
at the greatest unsigned 32-bit number. -/
def cappedId (n : Network) : StateId := min n.states.size nat32Max

/-- Add a state as `addState` does, under the number that is handed out for it. -/
def addStateCapped (n : Network) (rule : RuleIndex) (kind : StateKind) : Network :=
  { n with states := n.states.push ⟨n.cappedId, rule, kind, []⟩ }

/-- Add a rule as `addRule` does, with the numbers that are handed out for its two states. -/
def addRuleCapped (n : Network) : Network :=
  let rule := n.ruleCount
  let started := n.addStateCapped rule .ruleStart
  let grown := started.addStateCapped rule .ruleStop
  { grown with starts := grown.starts.push n.cappedId, stops := grown.stops.push started.cappedId }

/-- Put an edge behind those that a state has. Nothing happens if there is no such state. -/
def attach (n : Network) (source : StateId) (e : Edge) : Network :=
  { n with states := n.states.modify source fun s => { s with edges := s.edges ++ [e] } }

/-- Add an edge. For a call the stop state of the called rule, if there is one, first gets the edge
that returns to the follow state. -/
def addEdge (n : Network) (source : StateId) (e : Edge) : Network :=
  match e with
  | .call _ rule follow _ =>
      match n.stop? rule with
      -- The edge that returns is there even if the source of the call is not.
      | some stop => (n.attach stop (.epsilon follow)).attach source e
      | none => n.attach source e
  | _ => n.attach source e

end Network

/-! ### Growing a network from a state

A block of a rule is compiled by starting at a state and growing the network until the block is
read. What is left is the larger network and the state at which the block ends. -/

/-- A network under construction together with the state where its last block ends. -/
structure Growth where
  network : Network
  exit : StateId

namespace Network

/-- Add a state that is reached from `source` without reading anything. -/
def link (n : Network) (rule : RuleIndex) (source : StateId) (kind : StateKind) : Growth :=
  let next := n.nextId
  ⟨(n.addState rule kind).addEdge source (.epsilon next), next⟩

/-- Add a state that is reached from `source` by reading a symbol. -/
def read (n : Network) (rule : RuleIndex) (source : StateId) (label : Label) : Growth :=
  let next := n.nextId
  ⟨(n.addState rule .basic).addEdge source (.read next label), next⟩

/-- Add a state that is reached from `source` by calling a rule at a level. -/
def call (n : Network) (rule : RuleIndex) (source : StateId) (callee : RuleIndex) (level : Int) :
    Growth :=
  let follow := n.nextId
  let grown := n.addState rule .basic
  match grown.start? callee with
  | some start => ⟨grown.addEdge source (.call start callee follow level), follow⟩
  -- Without the rule there is no edge, and what follows is cut off.
  | none => ⟨grown, follow⟩

/-- Add edges from a decision to the two ways on, the preferred one first. -/
def choose (n : Network) (decision first second : StateId) : Network :=
  (n.addEdge decision (.epsilon first)).addEdge decision (.epsilon second)

end Network

end Caret
