import IsaLogic.Tool.Adapter
import IsaLogic.Tool.Shell
import IsaLogic.Toml.Reader

/-!
# Configuration files of engines

An engine configuration is a table of `limits` and `tools`, all of whose entries
may be left out; unknown ones are ignored. A structure may also be written as the
list of its entries in order.

The command line takes its tools from such a file, or by themselves, and runs them
where the shell is the only program.
-/

namespace IsaLogic

namespace Toml

/-- The entries of a structure in declared order, as far as they are given. -/
def record? (names : List String) : Toml → Option (List (Option Toml))
  | table entries => some (names.map fun name => (table entries).field? name)
  | arr items => some ((List.range names.length).map fun place => items[place]?)
  | datetime _ => some (names.map fun _ => none)
  | _ => none

/-- A count. -/
def count? : Toml → Option Nat
  | int value => if 0 ≤ value then some value.toNat else none
  | _ => none

/-- A string. -/
def text? : Toml → Option String
  | str value => some value
  | _ => none

/-- The strings of a list. -/
def texts? : Toml → Option (List String)
  | arr items => items.mapM text?
  | _ => none

/-- Read an entry, or take a default for one that is left out. -/
def orElse {α : Type} (read : Toml → Option α) (default : α) : Option Toml → Option α
  | none => some default
  | some value => read value

end Toml

namespace Limits

/-- Read limits. -/
def ofToml? (toml : Toml) : Option Limits := do
  let usual : Limits := {}
  let names := ["brute_force_max_terms", "brute_force_max_literals", "cnf_explosion_limit",
    "tseytin_term_threshold", "tseytin_literal_threshold", "exact_minimize_max_terms",
    "heuristic_minimize_max_terms", "minimize_max_cubes", "exhaustive_mus_max_clauses"]
  let read := fun default entry => Toml.orElse Toml.count? default entry
  match ← toml.record? names with
  | [terms, literals, explosion, termThreshold, literalThreshold, exact, heuristic, cubes, mus] =>
    return {
      bruteForceMaxTerms := ← read usual.bruteForceMaxTerms terms
      bruteForceMaxLiterals := ← read usual.bruteForceMaxLiterals literals
      cnfExplosionLimit := ← read usual.cnfExplosionLimit explosion
      tseytinTermThreshold := ← read usual.tseytinTermThreshold termThreshold
      tseytinLiteralThreshold := ← read usual.tseytinLiteralThreshold literalThreshold
      exactMinimizeMaxTerms := ← read usual.exactMinimizeMaxTerms exact
      heuristicMinimizeMaxTerms := ← read usual.heuristicMinimizeMaxTerms heuristic
      minimizeMaxCubes := ← read usual.minimizeMaxCubes cubes
      exhaustiveMusMaxClauses := ← read usual.exhaustiveMusMaxClauses mus }
  | _ => none

end Limits

namespace Tool

/-- Read a tool, which needs a program. -/
def ofToml? (toml : Toml) : Option Tool := do
  match ← toml.record? ["program", "args", "timeout_secs"] with
  | [some program, args, timeout] =>
    return {
      program := ← program.text?
      args := ← Toml.orElse Toml.texts? [] args
      timeout := ← Toml.orElse (fun value => value.count?.map some) none timeout }
  | _ => none

end Tool

namespace EngineConfig

/-- Read the tools of an engine. -/
def readTools? (toml : Toml) : Option Tools := do
  let read := Toml.orElse (fun value => (Tool.ofToml? value).map some) none
  match ← toml.record? ["sat_solver", "minimizer", "mus_extractor"] with
  | [satSolver, minimizer, musExtractor] =>
    return {
      satSolver := ← read satSolver
      minimizer := ← read minimizer
      musExtractor := ← read musExtractor }
  | _ => none

/-- Read a configuration. -/
def ofToml? (toml : Toml) : Option EngineConfig := do
  match ← toml.record? ["limits", "tools"] with
  | [limits, tools] =>
    return {
      limits := ← Toml.orElse Limits.ofToml? {} limits
      tools := ← Toml.orElse readTools? {} tools }
  | _ => none

/-- Read a configuration file. -/
def parse (text : String) : Except QueryError EngineConfig :=
  match (Toml.parse? text).bind ofToml? with
  | some config => .ok config
  | none => .error .config

end EngineConfig

namespace Tool

/-- Decide a clause list on the command line. -/
def solve (tool : Tool) : Cnf → Except QueryError SatResult := Shell.host.solve tool

/-- Minimize a cover on the command line. -/
def minimizeCover (tool : Tool) : Pla → Except QueryError Pla := Shell.host.minimizeCover tool

/-- Find minimal unsatisfiable subsets on the command line. -/
def extract (tool : Tool) : Cnf → Except QueryError (List (List Nat)) := Shell.host.extract tool

end Tool

namespace Engine

/-- The engine of the command line with given limits and tools. -/
def ofConfig (config : EngineConfig) : Engine := withTools Shell.host config

end Engine

end IsaLogic
