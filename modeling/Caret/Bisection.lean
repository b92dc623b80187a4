/-!
# `Caret.Bisection`: where a test stops holding

`partitionPoint p xs` looks by halving for the number of leading elements that satisfy `p`. The
answer is that number whenever the elements that satisfy `p` come first. On other lists the answer
depends on the elements that are inspected: the one in the middle of the remaining part, until one
element remains.
-/

set_option autoImplicit false

namespace Caret

/-- Halve the `size` positions from `base` on until one is left, and answer that position, or the
one after it if it satisfies `p`. -/
def bisect (p : Nat → Bool) (base size : Nat) : Nat :=
  if size ≤ 1 then
    if p base then base + 1 else base
  else
    bisect p (if p (base + size / 2) then base + size / 2 else base) (size - size / 2)
termination_by size

/-- The number of leading elements that satisfy `p`, found by halving. -/
def partitionPoint {α : Type} (p : α → Bool) (xs : List α) : Nat :=
  if xs.isEmpty then 0 else bisect (fun i => xs[i]?.any p) 0 xs.length

end Caret
