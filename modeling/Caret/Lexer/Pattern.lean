import Caret.Lexer.Command

/-!
# `Caret.Lexer.Pattern`: patterns and lexer rules

A pattern describes texts. `Pattern.compile` grows a network by a piece that reads these texts:
a literal is a chain of symbols, a choice is a decision with one way for each alternative, and a
repetition is the required number of copies followed by a loop, or by as many optional copies as the
upper bound allows.
-/

set_option autoImplicit false

namespace Caret

/-- A set of characters, given by ranges that include both ends. A range whose ends are in the
wrong order holds nothing. -/
structure CharSet where
  ranges : List (Char × Char)

namespace CharSet

/-- The set of the characters of a text. -/
def ofChars (chars : String) : CharSet := ⟨chars.toList.map fun c => (c, c)⟩

/-- The digits `0` to `9`. -/
def digits : CharSet := ⟨[('0', '9')]⟩

/-- The letters `a` to `z` and `A` to `Z`. -/
def letters : CharSet := ⟨[('a', 'z'), ('A', 'Z')]⟩

/-- Blank, tab and the two characters that end lines. -/
def whitespace : CharSet := ofChars " \t\r\n"

/-- Add a range. -/
def withRange (s : CharSet) (first last : Char) : CharSet := ⟨s.ranges ++ [(first, last)]⟩

/-- Whether a character is in the set. -/
def contains (s : CharSet) (c : Char) : Bool :=
  s.ranges.any fun r => decide (r.1 ≤ c) && decide (c ≤ r.2)

/-- The code points of the characters. -/
def codePoints (s : CharSet) : IntervalSet :=
  s.ranges.foldl (fun set r => set.add (.closed r.1.toNat r.2.toNat)) .empty

end CharSet

/-- A pattern of texts. -/
inductive Pattern where
  | literal (text : String)
  | oneOf (chars : CharSet)
  | noneOf (chars : CharSet)
  | any
  | seq (parts : List Pattern)
  | alt (alternatives : List Pattern)
  /-- At least `least` copies, and at most `most` if there is a bound. A bound below `least` allows
  no further copies. -/
  | repeated (body : Pattern) (least : Nat) (most : Option Nat)

namespace Pattern

/-- One or more copies. -/
def oneOrMore (p : Pattern) : Pattern := .repeated p 1 none

/-- Any number of copies. -/
def zeroOrMore (p : Pattern) : Pattern := .repeated p 0 none

/-- At most one copy. -/
def optional (p : Pattern) : Pattern := .repeated p 0 (some 1)

/-- The text of a pattern that is nothing but a literal. -/
def literal? : Pattern → Option String
  | .literal text => some text
  | _ => none

end Pattern

/-! ### Networks of patterns -/

/-- Grow by a chain of states that reads the characters one by one. -/
def Growth.readChars (rule : RuleIndex) : List Char → Growth → Growth
  | [], g => g
  | c :: cs, ⟨n, source⟩ => readChars rule cs (n.read rule source (.symbol c.toNat))

/-- Grow by a loop around `body`: a decision that enters the body or leaves. The body leads back to
the decision. -/
def Growth.loop (rule : RuleIndex) (body : Growth → Growth) : Growth → Growth
  | ⟨n, source⟩ =>
      let entry := n.nextId
      let inside := entry + 1
      let exit := entry + 2
      let grown := ((n.addState rule .decision).addState rule .basic).addState rule .basic
      match body ⟨(grown.addEdge source (.epsilon entry)).choose entry inside exit, inside⟩ with
      | ⟨done, bodyExit⟩ => ⟨done.addEdge bodyExit (.epsilon entry), exit⟩

/-- Grow by an optional copy of `body`: a decision that enters the body or passes it by. -/
def Growth.bypass (rule : RuleIndex) (body : Growth → Growth) : Growth → Growth
  | ⟨n, source⟩ =>
      let decision := n.nextId
      let inside := decision + 1
      let join := decision + 2
      let grown := ((n.addState rule .decision).addState rule .basic).addState rule .basic
      match body ⟨(grown.addEdge source (.epsilon decision)).choose decision inside join, inside⟩
        with
      | ⟨done, bodyExit⟩ => ⟨done.addEdge bodyExit (.epsilon join), join⟩

mutual

/-- Grow a network by a piece that reads the texts of a pattern. -/
def Pattern.compile (rule : RuleIndex) : Pattern → Growth → Growth
  | .literal text, g => g.readChars rule text.toList
  | .oneOf chars, ⟨n, source⟩ => n.read rule source (.oneOf chars.codePoints)
  | .noneOf chars, ⟨n, source⟩ => n.read rule source (.noneOf chars.codePoints)
  | .any, ⟨n, source⟩ => n.read rule source .any
  | .seq parts, g => Pattern.compileSeq rule parts g
  | .alt alternatives, ⟨n, source⟩ =>
      let decision := n.nextId
      let join := decision + 1
      let grown := (n.addState rule .decision).addState rule .basic
      ⟨Pattern.compileAlt rule decision join alternatives
        (grown.addEdge source (.epsilon decision)), join⟩
  | .repeated body least most, g =>
      -- The copies that must be there, and then those that may be.
      let required := Nat.repeat (fun g => Pattern.compile rule body g) least g
      match most with
      | none => required.loop rule fun g => Pattern.compile rule body g
      | some most =>
          Nat.repeat (fun g => g.bypass rule fun g => Pattern.compile rule body g)
            (most - least) required

/-- Grow by the parts one after the other. -/
def Pattern.compileSeq (rule : RuleIndex) : List Pattern → Growth → Growth
  | [], g => g
  | p :: ps, g => Pattern.compileSeq rule ps (Pattern.compile rule p g)

/-- Grow by a way from `decision` to `join` for each alternative. -/
def Pattern.compileAlt (rule : RuleIndex) (decision join : StateId) :
    List Pattern → Network → Network
  | [], n => n
  | p :: ps, n =>
      let entry := n.nextId
      match Pattern.compile rule p
          ⟨(n.addState rule .basic).addEdge decision (.epsilon entry), entry⟩ with
      | ⟨done, exit⟩ =>
          Pattern.compileAlt rule decision join ps (done.addEdge exit (.epsilon join))

end

/-! ### Rules -/

/-- A lexer rule: a name, the texts it matches, and what happens to them. -/
structure LexerRule where
  name : String
  pattern : Pattern
  commands : List Command

namespace LexerRule

/-- A rule whose text stays a token on the default channel. -/
def ofPattern (name : String) (pattern : Pattern) : LexerRule := ⟨name, pattern, []⟩

/-- Add a command behind those that the rule has. -/
def withCommand (r : LexerRule) (c : Command) : LexerRule :=
  { r with commands := r.commands ++ [c] }

/-- Put the rule's tokens on the hidden channel. -/
def hidden (r : LexerRule) : LexerRule := r.withCommand (.channel hiddenChannel)

/-- Drop the rule's text. -/
def skipped (r : LexerRule) : LexerRule := r.withCommand .skip

end LexerRule

/-- Grow by a chain of command edges, numbered from `index` on. -/
def Growth.runCommands (rule : RuleIndex) : List Command → Nat → Growth → Growth
  | [], _, g => g
  | _ :: cs, index, ⟨n, source⟩ =>
      let next := n.nextId
      runCommands rule cs (index + 1)
        ⟨(n.addState rule .basic).addEdge source (.command next index), next⟩

namespace LexerNetwork

/-- The greatest code point. -/
def maxCodePoint : Int := 0x10FFFF

/-- The network without rules, over the code points. -/
def empty : LexerNetwork := ⟨.empty maxCodePoint, #[], #[]⟩

/-- Add a rule. Its token type is one more than its position. -/
def addRule (l : LexerNetwork) (r : LexerRule) : LexerNetwork :=
  match l with
  | ⟨n, tokenTypes, commands⟩ =>
      let rule := n.ruleCount
      let start := n.nextId
      match (r.pattern.compile rule ⟨n.addRule, start⟩).runCommands rule r.commands commands.size
        with
      | ⟨grown, exit⟩ =>
          -- The stop state was added right behind the start state.
          ⟨grown.addEdge exit (.epsilon (start + 1)), tokenTypes.push (rule + 1),
            commands ++ r.commands⟩

/-- The network of the rules in order. -/
def ofRules (rules : List LexerRule) : LexerNetwork := rules.foldl addRule empty

end LexerNetwork

end Caret
