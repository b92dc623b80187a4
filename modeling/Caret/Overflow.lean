/-!
# `Caret.Overflow`: bounded numbers and the ways they run out

Token types, channels, precedence levels and interval bounds are signed 32-bit numbers. State
numbers and text offsets are unsigned 32-bit numbers. Rule indices, positions and counts are
unsigned 64-bit numbers. They are kept as `Int` and `Nat`. Arithmetic whose exact result may leave
its range is checked: it answers `Overflow` instead of a wrapped number. A position that is turned
into a state number, a text offset or a line number stops at `nat32Max` instead
(`Network.cappedId`, `textOffset`).
-/

set_option autoImplicit false

namespace Caret

/-- An arithmetic operation whose exact result does not fit its type. -/
inductive Overflow where
  | addition
  | subtraction
deriving DecidableEq

/-- The wording of an overflow. -/
def Overflow.message : Overflow → String
  | .addition => "attempt to add with overflow"
  | .subtraction => "attempt to subtract with overflow"

/-! ### Ranges -/

/-- The least signed 32-bit number. -/
def int32Min : Int := -2147483648

/-- The greatest signed 32-bit number. -/
def int32Max : Int := 2147483647

/-- The greatest unsigned 32-bit number. -/
def nat32Max : Nat := 4294967295

/-- The greatest unsigned 64-bit number. -/
def nat64Max : Nat := 18446744073709551615

/-! ### Checked operations -/

/-- The next signed 32-bit number. -/
def int32Succ (v : Int) : Except Overflow Int :=
  if v < int32Max then .ok (v + 1) else .error .addition

/-- The signed 32-bit number before this one. -/
def int32Pred (v : Int) : Except Overflow Int :=
  if int32Min < v then .ok (v - 1) else .error .subtraction

/-- A sum of natural numbers that must not exceed `max`. -/
def natAdd (max a b : Nat) : Except Overflow Nat :=
  if a + b ≤ max then .ok (a + b) else .error .addition

/-- A difference of natural numbers that must not fall below zero. -/
def natSub (a b : Nat) : Except Overflow Nat :=
  if b ≤ a then .ok (a - b) else .error .subtraction

end Caret
