import IsaLogic.Json.Basic

/-!
# TOML values and tables

A document is a table. Keys and headers build it step by step, and each step says
which tables it may open: a header defines a table once, and a dotted key adds
only to tables that dotted keys made. `Node` keeps what these rules need to know,
`Toml` is the finished value. Floats and dates are kept as they are spelled.
-/

namespace IsaLogic

/-- A TOML value. -/
inductive Toml where
  | str (value : String)
  | int (value : Int)
  | float (spelling : String)
  | bool (value : Bool)
  | datetime (spelling : String)
  | arr (items : List Toml)
  | table (entries : List (String × Toml))
deriving Inhabited

namespace Toml

/-- A value under construction. -/
inductive Node where
  | value (value : Toml)
  /-- A table. It is implicit if no header defined it, and dotted if a dotted key
  made it. -/
  | table (implicit dotted : Bool) (entries : List (String × Node))
  /-- The tables of an array, the last first. -/
  | tables (items : List (List (String × Node)))

/-- Entries under construction. -/
abbrev Entries := List (String × Node)

namespace Node

mutual

/-- The finished value. -/
def finish : Node → Toml
  | .value finished => finished
  | .table _ _ entries => .table (finishEntries entries)
  | .tables items => .arr (finishItems items).reverse

/-- The finished entries. -/
def finishEntries : List (String × Node) → List (String × Toml)
  | [] => []
  | (key, node) :: rest => (key, finish node) :: finishEntries rest

/-- The finished tables of an array. -/
def finishItems : List (List (String × Node)) → List Toml
  | [] => []
  | entries :: rest => .table (finishEntries entries) :: finishItems rest

end

end Node

namespace Entries

/-- Replace the entry of a key, or add one at the end. -/
def set (key : String) (node : Node) : Entries → Entries
  | [] => [(key, node)]
  | (other, old) :: rest =>
    if other = key then (key, node) :: rest else (other, old) :: set key node rest

/-- The entry of a key. -/
def get? (key : String) (entries : Entries) : Option Node :=
  (entries.find? fun entry => entry.1 == key).map Prod.snd

/-- Change the table at the end of a path of headers. Tables on the way are made if
they are missing; of an array, the last table is meant. -/
def descend (change : Entries → Option Entries) : List String → Entries → Option Entries
  | [], entries => change entries
  | key :: path, entries =>
    match entries.get? key with
    | none => do
      return entries.set key (.table true false (← descend change path []))
    | some (.value _) => none
    | some (.table implicit dotted inner) => do
      return entries.set key (.table implicit dotted (← descend change path inner))
    | some (.tables (last :: items)) => do
      return entries.set key (.tables ((← descend change path last) :: items))
    | some (.tables []) => none

/-- Add a value under a key that is not there yet. -/
def insertNew (key : String) (value : Toml) (entries : Entries) : Option Entries :=
  match entries.get? key with
  | none => some (entries.set key (.value value))
  | some _ => none

/-- Add a value under a dotted key: a path of tables and a last key. The tables on
the path must be implicit, and the last of them made by a dotted key. -/
def assign (value : Toml) (last : String) (dotted : Bool) : List String → Entries → Option Entries
  | [], entries => if dotted then entries.insertNew last value else none
  | key :: path, entries =>
    match entries.get? key with
    | none => do return entries.set key (.table true true (← assign value last true path []))
    | some (.table true wasDotted inner) => do
      return entries.set key (.table true wasDotted (← assign value last wasDotted path inner))
    | some (.tables (inner :: items)) => do
      return entries.set key (.tables ((← assign value last false path inner) :: items))
    | some _ => none

/-- Define the table of a header. It may exist only as an implicit table that no
dotted key made. -/
def defineTable (key : String) (entries : Entries) : Option Entries :=
  match entries.get? key with
  | none => some (entries.set key (.table false false []))
  | some (.table true false inner) => some (entries.set key (.table false false inner))
  | some _ => none

/-- Add a table to an array of tables. -/
def appendTable (key : String) (entries : Entries) : Option Entries :=
  match entries.get? key with
  | none => some (entries.set key (.tables [[]]))
  | some (.tables items) => some (entries.set key (.tables ([] :: items)))
  | some _ => none

end Entries

/-- The value of a key of a table. -/
def field? (key : String) : Toml → Option Toml
  | table entries => (entries.find? fun entry => entry.1 == key).map Prod.snd
  | _ => none

mutual

/-- The value a JSON value stands for. Fields that are null are left out. -/
def ofJson : Json → Toml
  | .null => .arr []
  | .bool value => .bool value
  | .int value => .int value
  | .float _ => .float "nan"
  | .str value => .str value
  | .arr items => .arr (ofItems items)
  | .obj fields => .table (ofFields fields)

/-- The values of some items. -/
def ofItems : List Json → List Toml
  | [] => []
  | item :: rest => ofJson item :: ofItems rest

/-- The values of some fields. -/
def ofFields : List (String × Json) → List (String × Toml)
  | [] => []
  | (_, .null) :: rest => ofFields rest
  | (key, value) :: rest => (key, ofJson value) :: ofFields rest

end

end Toml

end IsaLogic
