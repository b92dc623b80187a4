import Caret.Bisection
import Caret.Text.Range

/-!
# `Caret.Text.Lines`: lines and columns

A line ends after `\n`, after `\r\n`, or after a `\r` that no `\n` follows. `Lines.position` finds
the line of an offset, and the number of bytes from the start of that line. Both count from zero.
-/

set_option autoImplicit false

namespace Caret

/-- A place in a text: a line, and a number of bytes from its start. -/
structure LineColumn where
  line : Nat
  column : Nat
deriving DecidableEq

/-- Where the lines of a text start, and how long the text is. -/
structure Lines where
  starts : List Nat
  length : Nat

namespace Lines

/-- The offsets behind the line ends of `cs`, which stands at byte position `index`. -/
def startsFrom (index : Nat) : List Char → List Nat
  | [] => []
  | '\r' :: '\n' :: cs => textOffset (index + 2) :: startsFrom (index + 2) cs
  | '\r' :: cs => textOffset (index + 1) :: startsFrom (index + 1) cs
  | '\n' :: cs => textOffset (index + 1) :: startsFrom (index + 1) cs
  | c :: cs => startsFrom (index + c.utf8Size) cs

/-- The lines of a text. -/
def ofText (text : String) : Lines :=
  ⟨0 :: startsFrom 0 text.toList, textOffset (byteLength text.toList)⟩

/-- The number of lines. A text that ends with a line end has an empty last line. -/
def count (l : Lines) : Nat := l.starts.length

/-- The place of an offset: the last line that starts at or before it, found by halving. An offset
past the end counts as the end, and a line further on is written as the greatest number. -/
def position (l : Lines) (offset : Nat) : LineColumn :=
  let place := min offset l.length
  let line := partitionPoint (fun start => decide (start ≤ place)) l.starts - 1
  ⟨min line nat32Max, place - l.starts[line]?.getD 0⟩

end Lines

end Caret
