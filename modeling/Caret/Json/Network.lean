import Caret.Json.Basic
import Caret.Lexer.Command

/-!
# `Caret.Json.Network`: networks in the exchange format

Each type has a `toJson` that writes a value, and an `ofJson?` that reads one and answers nothing if
a field is missing, has another type, or is a number out of its range. Whatever a network consists
of is taken as it stands.
-/

set_option autoImplicit false

namespace Caret

namespace Interval

/-- Write an interval. -/
def toJson (i : Interval) : Json := .record [("start", .int i.start), ("stop", .int i.stop)]

/-- Read an interval. -/
def ofJson? (j : Json) : Option Interval := do
  match ← j.fields? ["start", "stop"] with
  | [start, stop] => return ⟨← start.int32?, ← stop.int32?⟩
  | _ => none

end Interval

namespace IntervalSet

/-- Write a set. -/
def toJson (s : IntervalSet) : Json :=
  .record [("intervals", .listOf Interval.toJson s.intervals)]

/-- Read a set. -/
def ofJson? (j : Json) : Option IntervalSet := do
  match ← j.fields? ["intervals"] with
  | [intervals] => return ⟨← intervals.list? Interval.ofJson?⟩
  | _ => none

end IntervalSet

namespace Edge

/-- Write an edge. -/
def toJson : Edge → Json
  | .epsilon target => .form "Epsilon" (.record [("target", .nat target)])
  | .gate target level =>
      .form "PrecedencePredicate" (.record [("target", .nat target), ("precedence", .int level)])
  | .call target rule follow level =>
      .form "RuleCall" (.record [("target", .nat target), ("rule", .nat rule),
        ("follow", .nat follow), ("precedence", .int level)])
  | .command target index =>
      .form "Action" (.record [("target", .nat target), ("action_index", .nat index)])
  | .read target (.symbol value) =>
      .form "Atom" (.record [("target", .nat target), ("label", .int value)])
  | .read target (.oneOf set) =>
      .form "Set" (.record [("target", .nat target), ("set", set.toJson)])
  | .read target (.noneOf set) =>
      .form "NotSet" (.record [("target", .nat target), ("set", set.toJson)])
  | .read target .any => .form "Wildcard" (.record [("target", .nat target)])

/-- Read an edge. -/
def ofJson? (j : Json) : Option Edge := do
  let (name, value) ← j.form?
  let value ← value
  match name with
  | "Epsilon" =>
      match ← value.recordFields? ["target"] with
      | [target] => return .epsilon (← target.nat32?)
      | _ => none
  | "PrecedencePredicate" =>
      match ← value.recordFields? ["target", "precedence"] with
      | [target, level] => return .gate (← target.nat32?) (← level.int32?)
      | _ => none
  | "RuleCall" =>
      match ← value.recordFields? ["target", "rule", "follow", "precedence"] with
      | [target, rule, follow, level] =>
          return .call (← target.nat32?) (← rule.nat64?) (← follow.nat32?) (← level.int32?)
      | _ => none
  | "Action" =>
      match ← value.recordFields? ["target", "action_index"] with
      | [target, index] => return .command (← target.nat32?) (← index.nat64?)
      | _ => none
  | "Atom" =>
      match ← value.recordFields? ["target", "label"] with
      | [target, label] => return .read (← target.nat32?) (.symbol (← label.int32?))
      | _ => none
  | "Set" =>
      match ← value.recordFields? ["target", "set"] with
      | [target, set] => return .read (← target.nat32?) (.oneOf (← IntervalSet.ofJson? set))
      | _ => none
  | "NotSet" =>
      match ← value.recordFields? ["target", "set"] with
      | [target, set] => return .read (← target.nat32?) (.noneOf (← IntervalSet.ofJson? set))
      | _ => none
  | "Wildcard" =>
      match ← value.recordFields? ["target"] with
      | [target] => return .read (← target.nat32?) .any
      | _ => none
  | _ => none

end Edge

namespace StateKind

/-- Write the role of a state. -/
def toJson : StateKind → Json
  | .basic => .text "Basic"
  | .decision => .text "Decision"
  | .ruleStart => .text "RuleStart"
  | .ruleStop => .text "RuleStop"

/-- Read the role of a state. -/
def ofJson? (j : Json) : Option StateKind := do
  let (name, value) ← j.form?
  if Json.isBare value then
    match name with
    | "Basic" => some .basic
    | "Decision" => some .decision
    | "RuleStart" => some .ruleStart
    | "RuleStop" => some .ruleStop
    | _ => none
  else none

end StateKind

namespace State

/-- Write a state. -/
def toJson (s : State) : Json :=
  .record [("id", .nat s.id), ("rule", .nat s.rule), ("kind", s.kind.toJson),
    ("transitions", .listOf Edge.toJson s.edges)]

/-- Read a state. -/
def ofJson? (j : Json) : Option State := do
  match ← j.fields? ["id", "rule", "kind", "transitions"] with
  | [id, rule, kind, edges] =>
      return ⟨← id.nat32?, ← rule.nat64?, ← StateKind.ofJson? kind, ← edges.list? Edge.ofJson?⟩
  | _ => none

end State

namespace Network

/-- Write a network. -/
def toJson (n : Network) : Json :=
  .record [("states", .listOf State.toJson n.states.toList),
    ("rule_to_start", .listOf Json.nat n.starts.toList),
    ("rule_to_stop", .listOf Json.nat n.stops.toList),
    ("max_token_type", .int n.maxTokenType)]

/-- Read a network. -/
def ofJson? (j : Json) : Option Network := do
  match ← j.fields? ["states", "rule_to_start", "rule_to_stop", "max_token_type"] with
  | [states, starts, stops, maxTokenType] =>
      return ⟨(← states.list? State.ofJson?).toArray, (← starts.list? Json.nat32?).toArray,
        (← stops.list? Json.nat32?).toArray, ← maxTokenType.int32?⟩
  | _ => none

end Network

namespace Command

/-- Write a command. -/
def toJson : Command → Json
  | .channel number => .form "Channel" (.int number)
  | .skip => .text "Skip"
  | .more => .text "More"
  | .type tokenType => .form "Type" (.int tokenType)
  | .mode index => .form "Mode" (.nat index)
  | .pushMode index => .form "PushMode" (.nat index)
  | .popMode => .text "PopMode"

/-- Read a command. -/
def ofJson? (j : Json) : Option Command := do
  let (name, value) ← j.form?
  match name with
  | "Channel" => return .channel (← (← value).int32?)
  | "Skip" => if Json.isBare value then some .skip else none
  | "More" => if Json.isBare value then some .more else none
  | "Type" => return .type (← (← value).int32?)
  | "Mode" => return .mode (← (← value).nat64?)
  | "PushMode" => return .pushMode (← (← value).nat64?)
  | "PopMode" => if Json.isBare value then some .popMode else none
  | _ => none

end Command

namespace LexerNetwork

/-- Write the network of a lexer. -/
def toJson (l : LexerNetwork) : Json :=
  .record [("atn", l.network.toJson),
    ("rule_to_token_type", .listOf Json.int l.tokenTypes.toList),
    ("actions", .listOf Command.toJson l.commands.toList)]

/-- Read the network of a lexer. -/
def ofJson? (j : Json) : Option LexerNetwork := do
  match ← j.fields? ["atn", "rule_to_token_type", "actions"] with
  | [network, tokenTypes, commands] =>
      return ⟨← Network.ofJson? network, (← tokenTypes.list? Json.int32?).toArray,
        (← commands.list? Command.ofJson?).toArray⟩
  | _ => none

end LexerNetwork

end Caret
