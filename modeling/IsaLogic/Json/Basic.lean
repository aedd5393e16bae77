import IsaLogic.Ascending

/-!
# JSON values

A JSON value as written: an object keeps its fields in the order of the text,
repeated keys included. `canonical` is the value an object denotes: fields in
ascending order of their keys, a repeated key standing for its last value.
Numbers are integers of 64 bits, signed or unsigned, or doubles by their bits.
-/

namespace IsaLogic

/-- A JSON value. -/
inductive Json where
  | null
  | bool (value : Bool)
  | int (value : Int)
  | float (bits : UInt64)
  | str (value : String)
  | arr (items : List Json)
  | obj (fields : List (String × Json))
deriving Inhabited

namespace Json

/-- Ascending fields, the last value of a repeated key. -/
def sortFields {α : Type} (fields : List (String × α)) : List (String × α) :=
  fields.foldl (fun sorted field => insertEntry field.1 field.2 sorted) []

mutual

/-- The value with the fields of all objects ascending and without repetition. -/
def canonical : Json → Json
  | null => null
  | bool value => bool value
  | int value => int value
  | float bits => float bits
  | str value => str value
  | arr items => arr (canonicalItems items)
  | obj fields => obj (sortFields (canonicalFields fields))

/-- The canonical forms of some items. -/
def canonicalItems : List Json → List Json
  | [] => []
  | item :: rest => canonical item :: canonicalItems rest

/-- The fields with canonical values. -/
def canonicalFields : List (String × Json) → List (String × Json)
  | [] => []
  | (key, value) :: rest => (key, canonical value) :: canonicalFields rest

end

/-- The first value of a field of an object. -/
def field? (key : String) : Json → Option Json
  | obj fields => (fields.find? fun field => field.1 == key).map Prod.snd
  | _ => none

/-- The string a value is. -/
def string? : Json → Option String
  | str value => some value
  | _ => none

/-- The items of an array. -/
def items? : Json → Option (List Json)
  | arr items => some items
  | _ => none

/-- The fields of an object. -/
def fields? : Json → Option (List (String × Json))
  | obj fields => some fields
  | _ => none

/-- The integer a value is, if it fits 64 signed bits. -/
def int64? : Json → Option Int64
  | int value =>
    if -9223372036854775808 ≤ value ∧ value ≤ 9223372036854775807 then some (Int64.ofInt value) else none
  | _ => none

/-- The integer a value is, if it fits 64 unsigned bits. -/
def uint64? : Json → Option UInt64
  | int value =>
    if 0 ≤ value ∧ value ≤ 18446744073709551615 then some (UInt64.ofNat value.toNat) else none
  | _ => none

end Json

end IsaLogic
