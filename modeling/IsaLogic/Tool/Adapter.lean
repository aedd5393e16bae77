import IsaLogic.Cnf.Dimacs
import IsaLogic.Engine.Basic
import IsaLogic.Tool.Basic

/-!
# Engines with external tools

What the result of a tool means: the verdict and model of a solver, the table of a
minimizer, or the subsets of an extractor, which are matched with the clauses of
the query by their sets of literals.
-/

namespace IsaLogic

namespace SatResult

/-- The literals of a model, up to a zero. Words that are no literals are passed over. -/
def modelLiterals (words : List (List Char)) : List Int :=
  (words.filterMap fun word => (Text.readInt Text.maxLiteral word).toOption).takeWhile (· ≠ 0)

/-- What has been read of the output of a solver: its verdict and model. -/
abbrev Report := Option Bool × List Int

/-- Read a line of the output of a solver. -/
def readLine (report : Report) (line : List Char) : Report :=
  let line := Text.trim line
  match Text.dropStart? "s ".toList line with
  | some verdict =>
    match String.ofList (Text.trim verdict) with
    | "SATISFIABLE" => (some true, report.2)
    | "UNSATISFIABLE" => (some false, report.2)
    | _ => report
  | none =>
    match Text.dropStart? "v ".toList line with
    | some values => (report.1, report.2 ++ modelLiterals (Text.words values))
    | none => report

/-- The result on the standard output: a verdict after `s` and a model after `v`. -/
def ofReport? (text : List Char) : Option SatResult :=
  match (Text.lines text).foldl readLine (none, []) with
  | (some true, model) => some (.satisfiable model)
  | (some false, _) => some .unsatisfiable
  | (none, _) => none

/-- The result in a file: a verdict on the first line, then a model. -/
def ofFile? (text : List Char) : Option SatResult :=
  match Text.lines text with
  | [] => none
  | first :: rest =>
    match String.ofList (Text.trim first) with
    | "SAT" => some (.satisfiable (modelLiterals (rest.flatMap Text.words)))
    | "UNSAT" => some .unsatisfiable
    | _ => none

end SatResult

namespace Tool

/-- Whether a line starts a clause list. -/
def startsBlock (line : List Char) : Bool :=
  (Text.dropStart? "p ".toList (Text.trimStart line)).isSome

/-- The lines before the first block, and the blocks. -/
def splitBlocks : List (List Char) → List (List Char) × List (List (List Char))
  | [] => ([], [])
  | line :: rest =>
    let (before, blocks) := splitBlocks rest
    if startsBlock line then ([], (line :: before) :: blocks) else (line :: before, blocks)

/-- The texts of the clause lists in a text. What stands before the first is ignored. -/
def blocks (text : List Char) : List (List Char) :=
  (splitBlocks (Text.lines text)).2.map fun lines => lines.flatMap (· ++ ['\n'])

/-- The place of the first clause with the same set of literals. -/
def findClause (tool : Tool) (cnf : Cnf) (clause : List Int) : Except QueryError Nat :=
  match cnf.clauses.findIdx? fun other => ascending other == ascending clause with
  | some place => .ok place
  | none =>
    let literals := String.intercalate ", " (clause.map toString)
    .error (.toolOutput tool.program ("clause [" ++ literals ++ "] is not in the input"))

/-- The places of the clauses of a block. -/
def readSubset (tool : Tool) (cnf : Cnf) (block : List Char) : Except QueryError (List Nat) := do
  let subset ← Cnf.parse block
  return ascending (← subset.clauses.mapM (tool.findClause cnf))

/-- The subsets a text lists, one for each block. -/
def readSubsets (tool : Tool) (cnf : Cnf) (text : List Char) :
    Except QueryError (List (List Nat)) :=
  (blocks text).mapM (tool.readSubset cnf)

end Tool

namespace Host

/-- Decide a clause list. A solver ends with 10 if it found a model and with 20 if
there is none; both also serve as the verdict if it wrote none. -/
def solve (host : Host) (tool : Tool) (cnf : Cnf) : Except QueryError SatResult := do
  let run ← host.run tool "cnf" cnf.text
  if run.status ≠ .code 0 ∧ run.status ≠ .code 10 ∧ run.status ≠ .code 20 then
    throw (tool.failed cnf.text run)
  match SatResult.ofReport? run.stdout, SatResult.ofFile? run.output with
  | some result, _ => return result
  | none, some result => return result
  | none, none =>
    if run.status = .code 10 then return .satisfiable []
    else if run.status = .code 20 then return .unsatisfiable
    else throw (.toolOutput tool.program "no satisfiability verdict found")

/-- Minimize a cover. A table without labels takes those of the query. -/
def minimizeCover (host : Host) (tool : Tool) (pla : Pla) : Except QueryError Pla := do
  let run ← host.run tool "pla" pla.text
  if run.status ≠ .code 0 then throw (tool.failed pla.text run)
  let result ← Pla.parse run.result
  if result.inputs ≠ pla.inputs then
    throw (.toolOutput tool.program
      ("expected " ++ toString pla.inputs ++ " inputs, got " ++ toString result.inputs))
  return if result.labels.isEmpty then { result with labels := pla.labels } else result

/-- Find minimal unsatisfiable subsets. -/
def extract (host : Host) (tool : Tool) (cnf : Cnf) : Except QueryError (List (List Nat)) := do
  let run ← host.run tool "cnf" cnf.text
  if run.status ≠ .code 0 then throw (tool.failed cnf.text run)
  tool.readSubsets cnf run.result

end Host

/-- The tools of an engine. Without one, the engine does the work itself. -/
structure Tools where
  satSolver : Option Tool := none
  minimizer : Option Tool := none
  musExtractor : Option Tool := none
deriving DecidableEq, Repr

/-- The limits and tools of an engine. -/
structure EngineConfig where
  limits : Limits := {}
  tools : Tools := {}
deriving DecidableEq, Repr

namespace EngineConfig

/-- The usual limits without tools. -/
def inProcess : EngineConfig := {}

/-- The usual limits with the usual tools. -/
def standardTools : EngineConfig where
  tools := {
    satSolver := some { program := "minisat", args := ["\x7binput\x7d", "\x7boutput\x7d"] }
    minimizer := some { program := "espresso", args := ["\x7binput\x7d"] }
    musExtractor := some
      { program := "must", args := ["-o", "\x7boutput\x7d", "\x7binput\x7d"] } }

end EngineConfig

namespace Engine

/-- The engine with given limits, and with tools that a host runs. -/
def withTools (host : Host) (config : EngineConfig) : Engine :=
  let engine := inProcess config.limits
  let engine := match config.tools.satSolver with
    | some tool => { engine with solve := host.solve tool }
    | none => engine
  let engine := match config.tools.minimizer with
    | some tool =>
      { engine with minimizerName := tool.program, minimizeCover := host.minimizeCover tool }
    | none => engine
  match config.tools.musExtractor with
  | some tool => { engine with extract := host.extract tool }
  | none => engine

end Engine

end IsaLogic
