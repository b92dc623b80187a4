import Caret.Network.Edge

/-!
# `Caret.Traversal.TokenStream`: the tokens before the caret
-/

set_option autoImplicit false

namespace Caret

/-- What stands at a position: a token, or the caret. -/
inductive Lookahead where
  | token (tokenType : TokenType)
  | caret
deriving DecidableEq

/-- The token types in front of the caret. The caret stands behind the last one. -/
structure TokenStream where
  tokens : Array TokenType

namespace TokenStream

/-- Nothing but the caret. -/
def caretOnly : TokenStream := ⟨#[]⟩

/-- The position of the caret. -/
def caret (s : TokenStream) : Nat := s.tokens.size

/-- What stands at a position. Behind the caret there is nothing. -/
def lookahead (s : TokenStream) (index : Nat) : Option Lookahead :=
  match s.tokens[index]? with
  | some t => some (.token t)
  | none => if index = s.caret then some .caret else none

/-- The first position after `index` at which a token type stands. Positions are unsigned 64-bit
numbers. -/
def findAfter? (s : TokenStream) (tokenType : TokenType) (index : Nat) :
    Except Overflow (Option Nat) :=
  (natAdd nat64Max index 1).map fun next =>
    ((s.tokens.toList.drop next).findIdx? (· == tokenType)).map (next + ·)

end TokenStream

end Caret
