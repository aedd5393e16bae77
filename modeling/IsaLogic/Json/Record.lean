import IsaLogic.Json.Basic

/-!
# Fixed structures in JSON

A structure with named fields is written as an object, or as the array of its
fields in their declared order. A field may be left out; an array leaves out
fields at its end.
-/

namespace IsaLogic.Json

/-- The given number of items, the missing ones at the end; no more are allowed. -/
def positional? : Nat → List Json → Option (List (Option Json))
  | 0, [] => some []
  | 0, _ :: _ => none
  | count + 1, [] => (positional? count []).map (none :: ·)
  | count + 1, item :: rest => (positional? count rest).map (some item :: ·)

/-- The value of each named field. A key that occurs twice is refused. -/
def named? (names : List String) (fields : List (String × Json)) :
    Option (List (Option Json)) :=
  names.mapM fun name =>
    match fields.filter fun field => field.1 == name with
    | [] => some none
    | [field] => some (some field.2)
    | _ => none

/-- The fields of a structure in declared order. Unknown keys are ignored. -/
def openRecord? (names : List String) : Json → Option (List (Option Json))
  | obj fields => named? names fields
  | arr items => positional? names.length items
  | _ => none

/-- The fields of a structure in declared order. Unknown keys are refused. -/
def closedRecord? (names : List String) : Json → Option (List (Option Json))
  | obj fields => if fields.all fun field => names.contains field.1 then named? names fields else none
  | arr items => positional? names.length items
  | _ => none

/-- The entries of a map, each read from its value, ascending by key; the last of
a repeated key counts, but all must be readable. -/
def map? {α : Type} (read : Json → Option α) : Json → Option (List (String × α))
  | obj fields => do
    let entries ← fields.mapM fun field => (read field.2).map (field.1, ·)
    return sortFields entries
  | _ => none

/-- The items of a list, each read. -/
def list? {α : Type} (read : Json → Option α) : Json → Option (List α)
  | arr items => items.mapM read
  | _ => none

end IsaLogic.Json
