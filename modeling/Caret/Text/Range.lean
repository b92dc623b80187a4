import Caret.Overflow

/-!
# `Caret.Text.Range`: byte offsets and ranges of text

An offset counts bytes of UTF-8 and is an unsigned 32-bit number. A position further on is written
as the greatest offset.
-/

set_option autoImplicit false

namespace Caret

/-- The offset of a byte position. -/
def textOffset (index : Nat) : Nat := min index nat32Max

/-- The number of bytes that characters take in UTF-8. -/
def byteLength : List Char → Nat
  | [] => 0
  | c :: cs => c.utf8Size + byteLength cs

/-- The bytes from offset `start` up to, but not including, offset `stop`. -/
structure TextRange where
  start : Nat
  stop : Nat
deriving DecidableEq

namespace TextRange

/-- The range between two byte positions. -/
def ofIndices (start stop : Nat) : TextRange := ⟨textOffset start, textOffset stop⟩

/-- The number of bytes in the range. A range that ends before it starts has none. -/
def length? (r : TextRange) : Except Overflow Nat := natSub r.stop r.start

/-- Whether the range starts where it ends. -/
def isEmpty (r : TextRange) : Bool := r.start == r.stop

/-- Whether the byte at an offset lies in the range. -/
def contains (r : TextRange) (offset : Nat) : Bool :=
  decide (r.start ≤ offset) && decide (offset < r.stop)

/-- The text of a range. -/
def render (r : TextRange) : String := toString r.start ++ ".." ++ toString r.stop

end TextRange

end Caret
