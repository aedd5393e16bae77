import IsaLogic.Cnf.Basic
import IsaLogic.Error
import IsaLogic.Text.Blank
import IsaLogic.Text.Integer

/-!
# Reading the DIMACS format

A problem line declares the number of variables; then literals follow, and a
zero ends a clause. Clauses may span lines. Lines that start with `c` are
comments, and a line that starts with `%` ends the text. The declared number of
clauses is read but not held against the clauses found.
-/

namespace IsaLogic.Cnf

/-- What has been read. Clauses and literals stand in reverse order. -/
structure Partial where
  numVars : Option Nat := none
  clauses : List (List Int) := []
  current : List Int := []

/-- Read the fields of a problem line, and give the number of variables. -/
def readProblem (line : Nat) (fields : List (List Char)) : Except QueryError Nat :=
  match fields with
  | [format, numVars, clauses] =>
    if format = "cnf".toList then
      match Text.readNat Text.maxCount numVars, Text.readNat Text.maxCount clauses with
      | .ok count, .ok _ => .ok count
      | .error cause, _ => .error (.dimacs line cause.message)
      | _, .error cause => .error (.dimacs line cause.message)
    else .error (.dimacs line "malformed problem line")
  | _ => .error (.dimacs line "malformed problem line")

/-- Read the literals of a line. -/
def readLiterals (line numVars : Nat) (state : Partial) :
    List (List Char) → Except QueryError Partial
  | [] => .ok state
  | word :: rest =>
    match Text.readInt Text.maxLiteral word with
    | .error cause => .error (.dimacs line cause.message)
    | .ok literal =>
      if literal = 0 then
        readLiterals line numVars
          { state with clauses := state.current.reverse :: state.clauses, current := [] } rest
      else if numVars < literal.natAbs then
        .error (.dimacs line
          ("variable " ++ toString (literalSize literal) ++ " exceeds declared count " ++
            toString numVars))
      else readLiterals line numVars { state with current := literal :: state.current } rest

/-- Read one line. `none` ends the text. -/
def readLine (line : Nat) (state : Partial) (raw : List Char) :
    Except QueryError (Option Partial) :=
  match Text.trim raw with
  | [] => .ok (some state)
  | 'c' :: _ => .ok (some state)
  | '%' :: _ => .ok none
  | 'p' :: header =>
    (readProblem line (Text.words header)).map fun count =>
      some { state with numVars := some count }
  | literals =>
    match state.numVars with
    | none => .error (.dimacs line "clause before problem line")
    | some numVars => (readLiterals line numVars state (Text.words literals)).map some

/-- Read lines, the first of which has the given number. -/
def readLines (line : Nat) (state : Partial) : List (List Char) → Except QueryError Partial
  | [] => .ok state
  | raw :: rest =>
    match readLine line state raw with
    | .error cause => .error cause
    | .ok none => .ok state
    | .ok (some state) => readLines (line + 1) state rest

/-- Read a text. A clause that the text leaves open is complete. -/
def parse (text : List Char) : Except QueryError Cnf := do
  let state ← readLines 1 {} (Text.lines text)
  let clauses := if state.current.isEmpty then state.clauses
    else state.current.reverse :: state.clauses
  match state.numVars with
  | none => throw (.dimacs 0 "missing problem line")
  | some numVars => return { numVars, clauses := clauses.reverse }

end IsaLogic.Cnf
