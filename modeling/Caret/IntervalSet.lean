import Caret.Bisection
import Caret.Interval

/-!
# `Caret.IntervalSet`: finite sets of integers as lists of intervals

The operations keep the intervals non-empty, in ascending order, and apart from each other by at
least one value, so a set has one representation and membership can be found by halving. A set that
is read from outside is kept as it is given. The same operations then work on whatever order its
intervals have.
-/

set_option autoImplicit false

namespace Caret

/-- A set of integers: the values of its intervals. -/
structure IntervalSet where
  intervals : List Interval
deriving DecidableEq

namespace IntervalSet

/-- The set of no values. -/
def empty : IntervalSet := ⟨[]⟩

/-- Whether no interval is stored. -/
def isEmpty (s : IntervalSet) : Bool := s.intervals.isEmpty

/-- The number of values, counted interval by interval. -/
def size (s : IntervalSet) : Nat := s.intervals.foldr (fun i n => i.size + n) 0

/-- The values, interval by interval. -/
def toList (s : IntervalSet) : List Int := s.intervals.flatMap Interval.toList

/-- Widen `i` by each interval from the front that reaches it, and put the result before the
rest. -/
def absorb (i : Interval) : List Interval → List Interval
  | [] => [i]
  | j :: rest =>
      if j.start ≤ i.stop then absorb ⟨min i.start j.start, max i.stop j.stop⟩ rest
      else i :: j :: rest

/-- Add the values of an interval. The intervals that end before it stay, the ones it touches are
joined with it. -/
def add (s : IntervalSet) (i : Interval) : IntervalSet :=
  if i.isEmpty then s
  else
    -- An interval that ends where this one starts touches it, so it is not among those before.
    let before := partitionPoint (fun j => decide (j.stop < i.start)) s.intervals
    ⟨s.intervals.take before ++ absorb i (s.intervals.drop before)⟩

/-- Take the values of an interval away. -/
def remove (s : IntervalSet) (i : Interval) : IntervalSet :=
  if i.isEmpty then s else ⟨s.intervals.flatMap (·.without i)⟩

/-- Whether `v` is in the set: it lies in the first interval that ends after it. -/
def contains (s : IntervalSet) (v : Int) : Bool :=
  (s.intervals[partitionPoint (fun j => decide (j.stop ≤ v)) s.intervals]?).any (·.contains v)

/-- The set of the given values. -/
def ofList (vs : List Int) : IntervalSet :=
  vs.foldl (fun s v => s.add (.ofValue v)) empty

/-! ### Operations named by their values

Each of these makes an interval that ends at one of its values, so the value after it must be in
range. -/

/-- Add one value. -/
def addValue? (s : IntervalSet) (v : Int) : Except Overflow IntervalSet :=
  (Interval.ofValue? v).map s.add

/-- Take one value away. -/
def removeValue? (s : IntervalSet) (v : Int) : Except Overflow IntervalSet :=
  (Interval.ofValue? v).map s.remove

/-- The set of one value. -/
def ofValue? (v : Int) : Except Overflow IntervalSet := empty.addValue? v

/-- The set of the values from `first` to `last`. -/
def closed? (first last : Int) : Except Overflow IntervalSet :=
  (Interval.closed? first last).map empty.add

/-- The set of the given values. -/
def ofList? (vs : List Int) : Except Overflow IntervalSet :=
  vs.foldlM addValue? empty

/-- The values from `low` to `high` that are not in the set. -/
def complement? (s : IntervalSet) (low high : Int) : Except Overflow IntervalSet :=
  (closed? low high).map fun all => s.intervals.foldl remove all

/-! ### Text -/

/-- The text of a set: its intervals in braces. -/
def render (s : IntervalSet) : Except Overflow String := do
  let parts ← s.intervals.mapM Interval.render
  return "\x7b" ++ ", ".intercalate parts ++ "\x7d"

end IntervalSet

end Caret
