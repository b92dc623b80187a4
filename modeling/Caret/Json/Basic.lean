import Caret.Overflow

/-!
# `Caret.Json.Basic`: values of the exchange format

Networks, configurations and completions are exchanged as JSON values. A structure is written as a
record of its fields. It is read from a record, in which other fields may stand too, or from the
list of the fields in order. A choice between forms is written as the name of the form, and as a
record with that single name if the form carries something.
-/

set_option autoImplicit false

namespace Caret

/-- A JSON value. Numbers with a fraction or an exponent are not told apart. -/
inductive Json where
  | null
  | bool (b : Bool)
  | int (n : Int)
  | fraction
  | text (s : String)
  | list (items : List Json)
  | record (fields : List (String × Json))

namespace Json

/-! ### Writing -/

/-- A natural number. -/
def nat (n : Nat) : Json := .int n

/-- A list of values. -/
def listOf {α : Type} (write : α → Json) (xs : List α) : Json := .list (xs.map write)

/-- A form that carries something. -/
def form (name : String) (value : Json) : Json := .record [(name, value)]

/-! ### Reading -/

/-- A truth value. -/
def bool? : Json → Option Bool
  | .bool b => some b
  | _ => none

/-- A text. -/
def text? : Json → Option String
  | .text s => some s
  | _ => none

/-- A signed 32-bit number. -/
def int32? : Json → Option Int
  | .int n => if int32Min ≤ n ∧ n ≤ int32Max then some n else none
  | _ => none

/-- A natural number up to `max`. -/
def natUpTo? (max : Nat) : Json → Option Nat
  | .int n => if 0 ≤ n ∧ n ≤ max then some n.toNat else none
  | _ => none

/-- An unsigned 32-bit number. -/
def nat32? : Json → Option Nat := natUpTo? nat32Max

/-- An unsigned 64-bit number. -/
def nat64? : Json → Option Nat := natUpTo? nat64Max

/-- A list of values. -/
def list? {α : Type} (read : Json → Option α) : Json → Option (List α)
  | .list items => items.mapM read
  | _ => none

/-- The values of the named fields, in the order of the names. From a list, fields at the end may be
missing. -/
def slots? (names : List String) : Json → Option (List (Option Json))
  | .record fields => some (names.map fun name => List.lookup name fields)
  | .list items =>
      if items.length ≤ names.length then
        some (items.map some ++ List.replicate (names.length - items.length) none)
      else none
  | _ => none

/-- The values of the named fields, in the order of the names. All of them have to be there. -/
def fields? (names : List String) (j : Json) : Option (List Json) :=
  (j.slots? names).bind fun slots => slots.mapM id

/-- The values of the named fields of a record. A list is not read. -/
def recordFields? (names : List String) : Json → Option (List Json)
  | .record fields => (Json.record fields).fields? names
  | _ => none

/-- The name of a form, and what it carries. -/
def form? : Json → Option (String × Option Json)
  | .text name => some (name, none)
  | .record [(name, value)] => some (name, some value)
  | _ => none

/-- Whether a form carries nothing: there is no value, or it is null. -/
def isBare : Option Json → Bool
  | none => true
  | some .null => true
  | some _ => false

end Json

end Caret
