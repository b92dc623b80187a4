import Caret.Lexer.Command
import Caret.Text.Lines

/-!
# `Caret.Lexer.Token`: tokens and lexical errors
-/

set_option autoImplicit false

namespace Caret

/-- A piece of text with its type, its channel and its place. -/
structure Token where
  tokenType : TokenType
  channel : Int
  text : String
  range : TextRange
deriving DecidableEq

/-- Whether a parser reads the token. -/
def Token.isDefaultChannel (t : Token) : Bool := t.channel == defaultChannel

/-- The character at which no lexer rule matches. Lines count from one and columns, in bytes, from
zero. -/
structure LexicalError where
  span : TextRange
  line : Nat
  column : Nat
  char : Char
deriving DecidableEq

namespace LexicalError

/-- The error of a character at a byte position of a text. -/
def ofPosition (text : String) (index : Nat) (char : Char) : LexicalError :=
  let place := (Lines.ofText text).position (textOffset index)
  { span := .ofIndices index (index + char.utf8Size)
    line := place.line + 1
    column := place.column
    char }

/-- What went wrong, without the place. -/
def reason (e : LexicalError) : String := "token recognition error at: '" ++ e.char.toString ++ "'"

/-- The wording of the error. -/
def message (e : LexicalError) : String :=
  "line " ++ toString e.line ++ ":" ++ toString e.column ++ " " ++ e.reason

end LexicalError

/-- Something that splits an input into tokens, and the lexer network that says on which channels
token types are. -/
structure TokenSource where
  network : LexerNetwork
  tokenize : String → Except LexicalError (List Token)

end Caret
