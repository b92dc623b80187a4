import Caret.Grammar.Expr
import Caret.Network.Basic

/-!
# `Caret.Grammar.Compile`: networks of grammars

Every rule has a start and a stop state, and its body is a piece of the network between them. A
part with more than one way on has a decision state, whose edges stand in the order of preference.
A rule with operators reads a primary and then comes to a decision with an edge for each operator.
The edge is a gate, which lets an operator through that binds at least as tightly as the level at
which the rule was entered. Behind the operator the rule calls itself one level higher.
-/

set_option autoImplicit false

namespace Caret

/-- The two ways on from a decision: into a part or past it, in the order of preference. -/
def Network.decide (n : Network) (decision inside outside : StateId) (greedy : Bool) : Network :=
  if greedy then n.choose decision inside outside else n.choose decision outside inside

mutual

/-- Grow a network by a piece that reads an expression of a rule. -/
def Expr.compile (rule : RuleIndex) : Expr Label RuleIndex → Growth → Growth
  | .terminal label, ⟨n, source⟩ => n.read rule source label
  | .rule callee, ⟨n, source⟩ => n.call rule source callee 0
  | .empty, g => g
  | .seq parts, g => Expr.compileSeq rule parts g
  | .alt alternatives, ⟨n, source⟩ =>
      match n.link rule source .decision with
      | ⟨n, decision⟩ =>
          let join := n.nextId
          ⟨Expr.compileAlt rule decision join alternatives (n.addState rule .basic), join⟩
  | .optional body greedy, ⟨n, source⟩ =>
      match n.link rule source .decision with
      | ⟨n, decision⟩ =>
          let inside := n.nextId
          let join := inside + 1
          let grown := (n.addState rule .basic).addState rule .basic
          match Expr.compile rule body ⟨grown.decide decision inside join greedy, inside⟩ with
          | ⟨n, exit⟩ => ⟨n.addEdge exit (.epsilon join), join⟩
  | .star body greedy, ⟨n, source⟩ =>
      match n.link rule source .decision with
      | ⟨n, entry⟩ =>
          let inside := n.nextId
          let outside := inside + 1
          let grown := (n.addState rule .basic).addState rule .basic
          match Expr.compile rule body ⟨grown.decide entry inside outside greedy, inside⟩ with
          | ⟨n, exit⟩ => ⟨n.addEdge exit (.epsilon entry), outside⟩
  -- The body comes before its decision, so it is read at least once.
  | .plus body greedy, ⟨n, source⟩ =>
      match n.link rule source .basic with
      | ⟨n, inside⟩ =>
          match Expr.compile rule body ⟨n, inside⟩ with
          | ⟨n, exit⟩ =>
              match n.link rule exit .decision with
              | ⟨n, again⟩ =>
                  let outside := n.nextId
                  ⟨(n.addState rule .basic).decide again inside outside greedy, outside⟩

/-- Grow by the parts one after the other. -/
def Expr.compileSeq (rule : RuleIndex) : List (Expr Label RuleIndex) → Growth → Growth
  | [], g => g
  | e :: es, g => Expr.compileSeq rule es (Expr.compile rule e g)

/-- Grow by a way from `decision` to `join` for each alternative. -/
def Expr.compileAlt (rule : RuleIndex) (decision join : StateId) :
    List (Expr Label RuleIndex) → Network → Network
  | [], n => n
  | e :: es, n =>
      match Expr.compile rule e (n.link rule decision .basic) with
      | ⟨n, exit⟩ => Expr.compileAlt rule decision join es (n.addEdge exit (.epsilon join))

end

/-- Grow by a way from `entry` back to it for each operator. The first operator has the given level,
and each of the others one less than the one before. -/
def Expr.compileOperators (rule : RuleIndex) (entry : StateId) :
    List (Expr Label RuleIndex) → Int → Network → Network
  | [], _, n => n
  | e :: es, level, n =>
      let gated := n.nextId
      match e.compile rule ⟨(n.addState rule .basic).addEdge entry (.gate gated level), gated⟩ with
      | ⟨n, exit⟩ =>
          -- The right operand binds tighter than the operator, which groups to the left.
          match n.call rule exit rule (level + 1) with
          | ⟨n, follow⟩ =>
              Expr.compileOperators rule entry es (level - 1) (n.addEdge follow (.epsilon entry))

/-- Grow by the body of a rule. -/
def Body.compile (rule : RuleIndex) : Body Label RuleIndex → Growth → Growth
  | .plain e, g => e.compile rule g
  | .precedence primaries operators, g =>
      match (Expr.alt primaries).compile rule g with
      | ⟨n, primary⟩ =>
          match n.link rule primary .decision with
          | ⟨n, entry⟩ =>
              (Expr.compileOperators rule entry operators operators.length n).link rule entry .basic

namespace Network

/-- Fill in a rule between its start and its stop state. -/
def addBody (n : Network) (rule : RuleIndex) (body : Body Label RuleIndex) : Network :=
  match n.start? rule, n.stop? rule with
  | some start, some stop =>
      match body.compile rule ⟨n, start⟩ with
      | ⟨n, exit⟩ => n.addEdge exit (.epsilon stop)
  | _, _ => n

/-- Fill in the bodies of rules, which stand from `rule` on. -/
def addBodies (n : Network) (rule : RuleIndex) : List (Rule Label RuleIndex) → Network
  | [] => n
  | r :: rs => (n.addBody rule r.body).addBodies (rule + 1) rs

/-- The network of the rules, over the token types up to `maxTokenType`. -/
def ofRules (rules : List (Rule Label RuleIndex)) (maxTokenType : TokenType) : Network :=
  (Nat.repeat addRule rules.length (empty maxTokenType)).addBodies 0 rules

end Network

end Caret
