/-!
# Ascending lists

Sets and maps are kept as lists in strictly ascending order, so that equal sets
are equal lists and every walk over them has one order.
-/

namespace IsaLogic

/-- The distinct elements of a list, in ascending order. -/
def ascending {α : Type} [Ord α] [BEq α] (list : List α) : List α :=
  (list.mergeSort fun a b => (compare a b).isLE).eraseReps

/-- Put an entry into an ascending list of entries, replacing one of the same key. -/
def insertEntry {κ α : Type} [Ord κ] (key : κ) (value : α) : List (κ × α) → List (κ × α)
  | [] => [(key, value)]
  | (other, old) :: rest =>
    match compare key other with
    | .lt => (key, value) :: (other, old) :: rest
    | .eq => (key, value) :: rest
    | .gt => (other, old) :: insertEntry key value rest

/-- The value of a key. -/
def lookup? {κ α : Type} [BEq κ] (key : κ) (entries : List (κ × α)) : Option α :=
  (entries.find? fun entry => entry.1 == key).map Prod.snd

end IsaLogic
