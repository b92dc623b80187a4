import Caret.Network.Edge

/-!
# `Caret.Grammar.Vocabulary`: names of token types
-/

set_option autoImplicit false

namespace Caret

/-- The names of the token types from zero on. A literal name is a text in single quotes. -/
structure Vocabulary where
  literalNames : Array (Option String)
  symbolicNames : Array (Option String)

/-- Put single quotes around a text. -/
def quoted (text : String) : String := "'" ++ text ++ "'"

/-- Take one pair of single quotes off a text, if it has one. -/
def unquoted (text : String) : String :=
  match text.toList with
  | '\'' :: inner =>
      if inner.getLast? = some '\'' then String.ofList inner.dropLast else text
  | _ => text

namespace Vocabulary

/-- The entry of a token type. -/
def slot (names : Array (Option String)) (tokenType : TokenType) : Option String :=
  if tokenType < 0 then none else names[tokenType.toNat]?.join

/-- The greatest token type with an entry, or zero. -/
def maxTokenType (v : Vocabulary) : TokenType :=
  ((max v.literalNames.size v.symbolicNames.size - 1 : Nat) : Int)

/-- The text that a token type stands for, in quotes. -/
def literalName (v : Vocabulary) (tokenType : TokenType) : Option String :=
  slot v.literalNames tokenType

/-- The name of a token type. -/
def symbolicName (v : Vocabulary) (tokenType : TokenType) : Option String :=
  slot v.symbolicNames tokenType

/-- What a token type is called: by its name, by its text without quotes, or by its number. -/
def displayName (v : Vocabulary) (tokenType : TokenType) : String :=
  match v.symbolicName tokenType, v.literalName tokenType with
  | some name, _ => name
  | none, some literal => unquoted literal
  | none, none => if tokenType = endOfInput then "EOF" else toString tokenType

end Vocabulary

end Caret
