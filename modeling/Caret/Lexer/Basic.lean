import Caret.Lexer.Pattern
import Caret.Lexer.Token

/-!
# `Caret.Lexer.Basic`: splitting text into tokens

A lexer follows all ways through its network at once. `Lexer.longestMatch` finds the longest prefix
that some rule matches, and of the rules that match it the first. `Lexer.tokenize` cuts such
prefixes off until the text is used up or nothing matches.
-/

set_option autoImplicit false

namespace Caret

/-- What becomes of the text that a rule matched. -/
structure LexerOutput where
  tokenType : TokenType
  channel : Int
  skip : Bool
deriving DecidableEq

namespace LexerOutput

/-- The effect of one command. The last channel and the last type count. -/
def apply (out : LexerOutput) : Command → LexerOutput
  | .channel number => { out with channel := number }
  | .type tokenType => { out with tokenType }
  | .skip => { out with skip := true }
  | .more | .mode _ | .pushMode _ | .popMode => out

/-- The effect of commands on a token of the given type. -/
def ofCommands (tokenType : TokenType) (commands : List Command) : LexerOutput :=
  commands.foldl apply ⟨tokenType, defaultChannel, false⟩

end LexerOutput

/-- A lexer: its network, and the name and output of each rule. -/
structure Lexer where
  network : LexerNetwork
  outputs : Array LexerOutput
  names : Array String

namespace Lexer

/-- The lexer of the rules in order. Rule `i` yields tokens of type `i + 1`. -/
def ofRules (rules : List LexerRule) : Lexer where
  network := .ofRules rules
  outputs := (rules.mapIdx fun i r => .ofCommands (i + 1) r.commands).toArray
  names := (rules.map LexerRule.name).toArray

/-! ### Matching -/

/-- The code points. -/
def codePoints : Universe := ⟨0, LexerNetwork.maxCodePoint⟩

/-- All states that can be reached from `roots` without reading anything. -/
def closure (l : Lexer) (roots : List StateId) : List StateId :=
  l.network.network.reach (fun s => (s.edges.filter Edge.isEpsilon).map Edge.target) roots

/-- The states before any character is read. -/
def initial (l : Lexer) : List StateId := l.closure l.network.network.starts.toList

/-- The states that edges out of `current` reach by reading `c`. -/
def move (l : Lexer) (current : List StateId) (c : Char) : List StateId :=
  (current.filterMap l.network.network.state?).flatMap fun s =>
    (s.edges.filter fun e => e.admits codePoints c.toNat).map Edge.target

/-- The first rule that is complete in one of the states. -/
def accepted (l : Lexer) (current : List StateId) : Option RuleIndex :=
  (((current.filterMap l.network.network.state?).filter fun s => s.kind = .ruleStop).map
    State.rule).min?

/-- The last rule that is completed on the way through `cs`, with the number of characters read
until then. `count` characters were read before, and `best` was the answer there. -/
def scan (l : Lexer) (current : List StateId) (count : Nat) (best : Option (RuleIndex × Nat)) :
    List Char → Option (RuleIndex × Nat)
  | [] => best
  | c :: cs =>
      match l.move current c with
      -- No way goes on, so the best match so far is the longest one.
      | [] => best
      | moved =>
          let next := l.closure moved
          let best := match l.accepted next with
            | some rule => some (rule, count + 1)
            | none => best
          scan l next (count + 1) best cs

/-- The longest non-empty prefix that a rule matches: the first such rule, and the number of
characters. -/
def longestMatch (l : Lexer) (cs : List Char) : Option (RuleIndex × Nat) :=
  l.scan l.initial 0 none cs

/-! ### Tokens -/

/-- The tokens of `cs`, which stands at byte position `index`, or the position and the character
where no rule matches. -/
def tokensFrom (l : Lexer) (index : Nat) (cs : List Char) : Except (Nat × Char) (List Token) :=
  match cs with
  | [] => .ok []
  | c :: rest =>
      match l.longestMatch (c :: rest) with
      | some (rule, length + 1) =>
          match l.outputs[rule]? with
          | some out =>
              let text := c :: rest.take length
              let next := index + byteLength text
              match tokensFrom l next (rest.drop length) with
              | .ok tokens =>
                  if out.skip then .ok tokens
                  else
                    .ok (⟨out.tokenType, out.channel, String.ofList text, .ofIndices index next⟩
                      :: tokens)
              | .error e => .error e
          -- `ofRules` gives every rule an output, so only other lexers come here.
          | none => .error (index, c)
      | _ => .error (index, c)
termination_by cs.length
decreasing_by
  simp only [List.length_drop, List.length_cons]
  omega

/-- The tokens of a text. -/
def tokenize (l : Lexer) (text : String) : Except LexicalError (List Token) :=
  match l.tokensFrom 0 text.toList with
  | .ok tokens => .ok tokens
  | .error (index, c) => .error (.ofPosition text index c)

/-- The lexer as a source of tokens. -/
def source (l : Lexer) : TokenSource := ⟨l.network, l.tokenize⟩

end Lexer

end Caret
