import IsaLogic.Cover.Expand
import IsaLogic.Error
import IsaLogic.Text.Blank
import IsaLogic.Text.Integer

/-!
# PLA tables

The text format that two-level minimizers exchange. Only tables with one output
are written or read. Directives start with a point; every other line that is not
blank is a row: a cube and its output. Rows with an output other than one are
skipped.
-/

namespace IsaLogic

/-- A single-output table: the cubes for which the output is one. -/
structure Pla where
  inputs : Nat
  labels : List String
  cubes : List Cube
deriving DecidableEq

namespace Pla

/-- A table with one input for each label. -/
def ofLabels (labels : List String) (cubes : List Cube) : Pla :=
  { inputs := labels.length, labels, cubes }

/-- The text of a table. -/
def text (pla : Pla) : String :=
  let labels := if pla.labels.isEmpty then ""
    else ".ilb " ++ String.intercalate " " pla.labels ++ "\n"
  ".i " ++ toString pla.inputs ++ "\n.o 1\n" ++ labels ++ ".ob f\n.type f\n.p " ++
    toString pla.cubes.length ++ "\n" ++
    String.join (pla.cubes.map fun cube => cube.text ++ " 1\n") ++ ".e\n"

/-- What has been read of a table. -/
structure Partial where
  inputs : Option Nat := none
  labels : List String := []
  cubes : List Cube := []

/-- The entry a character stands for. -/
def cell? : Char → Option (Option Bool)
  | '1' => some (some true)
  | '0' => some (some false)
  | '-' | '~' | '2' => some none
  | _ => none

/-- Read the cube of a row. -/
def readCube (line : Nat) : List Char → Except QueryError Cube
  | [] => .ok []
  | c :: rest =>
    match cell? c with
    | none => .error (.pla line ("bad cube character '" ++ String.singleton c ++ "'"))
    | some entry => (readCube line rest).map (entry :: ·)

/-- Read a directive. `none` ends the table. -/
def readDirective (line : Nat) (state : Partial) (fields : List (List Char)) :
    Except QueryError (Option Partial) :=
  match fields with
  | [] => .ok (some state)
  | name :: arguments =>
    if name = "i".toList then
      match arguments with
      | [] => .error (.pla line ".i without a count")
      | count :: _ =>
        match Text.readNat Text.maxCount count with
        | .ok n => .ok (some { state with inputs := some n })
        | .error cause => .error (.pla line cause.message)
    else if name = "ilb".toList then
      .ok (some { state with labels := arguments.map String.ofList })
    else if name = "e".toList ∨ name = "end".toList then .ok none
    else .ok (some state)

/-- Read a row. -/
def readRow (line : Nat) (state : Partial) (row : List Char) : Except QueryError Partial :=
  match state.inputs with
  | none => .error (.pla line "cube before .i")
  | some width =>
    match Text.words row with
    | input :: output :: _ =>
      if input.length ≠ width then
        .error (.pla line
          ("cube has " ++ toString input.length ++ " inputs, expected " ++ toString width))
      else if output = ['1'] ∨ output = ['4'] then
        (readCube line input).map fun cube => { state with cubes := state.cubes ++ [cube] }
      else .ok state
    | _ => .error (.pla line "cube row needs input and output parts")

/-- Read one line, without its comment. `none` ends the table. -/
def readLine (line : Nat) (state : Partial) (raw : List Char) :
    Except QueryError (Option Partial) :=
  match Text.trim (raw.takeWhile (· != '#')) with
  | [] => .ok (some state)
  | '.' :: directive => readDirective line state (Text.words directive)
  | row => (readRow line state row).map some

/-- Read lines, the first of which has the given number. -/
def readLines (line : Nat) (state : Partial) : List (List Char) → Except QueryError Partial
  | [] => .ok state
  | raw :: rest =>
    match readLine line state raw with
    | .error cause => .error cause
    | .ok none => .ok state
    | .ok (some state) => readLines (line + 1) state rest

/-- Read a table. -/
def parse (text : List Char) : Except QueryError Pla := do
  let state ← readLines 1 {} (Text.lines text)
  match state.inputs with
  | none => throw (.pla 0 "missing .i directive")
  | some inputs => return { inputs, labels := state.labels, cubes := state.cubes }

/-- The table with an irredundant prime cover. -/
def minimize (pla : Pla) : Pla := { pla with cubes := Cube.minimizeCover pla.cubes }

end Pla

end IsaLogic
