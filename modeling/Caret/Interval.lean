import Caret.Overflow

/-!
# `Caret.Interval`: half-open intervals of integers

An interval holds the values from `start` up to, but not including, `stop`. Where `stop` is not
above `start` it holds nothing. `ofValue?` and `closed?` are the constructors that end at a value
themselves, so the number after that value must still be a signed 32-bit number.
-/

set_option autoImplicit false

namespace Caret

/-- The integers `v` with `start ≤ v < stop`. -/
structure Interval where
  start : Int
  stop : Int
deriving DecidableEq

namespace Interval

/-- The interval of one value. -/
def ofValue (v : Int) : Interval := ⟨v, v + 1⟩

/-- The interval from `first` to `last`, both included. -/
def closed (first last : Int) : Interval := ⟨first, last + 1⟩

/-- The interval of one value, if the value after it is in range. -/
def ofValue? (v : Int) : Except Overflow Interval :=
  (int32Succ v).map (Interval.mk v)

/-- The interval from `first` to `last`, if the value after `last` is in range. -/
def closed? (first last : Int) : Except Overflow Interval :=
  (int32Succ last).map (Interval.mk first)

/-- Whether the interval holds no value. -/
def isEmpty (i : Interval) : Bool := decide (i.stop ≤ i.start)

/-- Whether `v` lies in the interval. -/
def contains (i : Interval) (v : Int) : Bool := decide (i.start ≤ v) && decide (v < i.stop)

/-- The number of values in the interval. -/
def size (i : Interval) : Nat := (i.stop - i.start).toNat

/-- The values of the interval in ascending order. -/
def toList (i : Interval) : List Int :=
  (List.range i.size).map fun (k : Nat) => i.start + k

/-- The part of the interval before `other`, and the part after it. Either may be empty. -/
def without (i other : Interval) : List Interval :=
  if other.stop ≤ i.start ∨ i.stop ≤ other.start then [i]
  else [⟨i.start, other.start⟩, ⟨other.stop, i.stop⟩].filter (!·.isEmpty)

/-- The text of an interval: its value, or its first and last value. An interval that holds nothing
is written by its bounds too, so the value before `stop` must be in range. -/
def render (i : Interval) : Except Overflow String :=
  if i.size = 1 then .ok (toString i.start)
  else (int32Pred i.stop).map fun last => toString i.start ++ ".." ++ toString last

end Interval

end Caret
