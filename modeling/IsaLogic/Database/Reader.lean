import IsaLogic.Clause.Reader
import IsaLogic.Database.Basic
import IsaLogic.Json.Record

/-!
# Reading databases

A database is an object of `extensions` and `parameters`, both of which may be
left out. An extension maps the spelling of each version to its body. All of the
text must have the right structure before the versions themselves are read; two
spellings of one version keep the later in the order of spellings.
-/

namespace IsaLogic.Database

/-- A database as it is written: versions are not read yet. -/
structure Draft where
  extensions : List (String × List (String × Option Clause))
  parameters : List (String × Clause)

namespace Draft

/-- Read a requirement. -/
def clause? (json : Json) : Option Clause := (Clause.ofJson json.canonical).toOption

/-- Read the body of a version; its requirement may be null or left out. -/
def release? (json : Json) : Option (Option Clause) := do
  match ← json.closedRecord? ["requires"] with
  | [some .null] | [none] => return none
  | [some requires] => return some (← clause? requires)
  | _ => none

/-- Read the body of an extension. -/
def extension? (json : Json) : Option (List (String × Option Clause)) := do
  match ← json.closedRecord? ["versions"] with
  | [some versions] => versions.map? release?
  | _ => none

/-- Read the body of a parameter. -/
def parameter? (json : Json) : Option Clause := do
  match ← json.closedRecord? ["requires"] with
  | [some requires] => clause? requires
  | _ => none

/-- Read a draft. -/
def ofJson? (json : Json) : Option Draft := do
  match ← json.closedRecord? ["extensions", "parameters"] with
  | [extensions, parameters] =>
    return {
      extensions := ← (extensions.getD (.obj [])).map? extension?
      parameters := ← (parameters.getD (.obj [])).map? parameter? }
  | _ => none

end Draft

/-- Add the versions of one extension. -/
def addSpellings (db : Database) (name : String) :
    List (String × Option Clause) → Except ConditionError Database
  | [] => .ok db
  | (spelling, requires) :: rest =>
    match Version.parse spelling.toList with
    | .ok version => addSpellings (db.addVersion name version requires) name rest
    | .error cause => .error (.version cause)

/-- The database of a draft. -/
def ofDraft (draft : Draft) : Except ConditionError Database := do
  let extensions ← draft.extensions.foldlM
    (fun db (entry : String × List (String × Option Clause)) => db.addSpellings entry.1 entry.2)
    empty
  return { extensions with parameters := draft.parameters }

/-- Read a database from a JSON value as it is written. -/
def ofJson (json : Json) : Except ConditionError Database :=
  match Draft.ofJson? json with
  | some draft => ofDraft draft
  | none => .error .json

/-- Read a database from JSON text. -/
def parse (text : String) : Except ConditionError Database :=
  match Json.read text with
  | some json => ofJson json
  | none => .error .json

end IsaLogic.Database
