import IsaLogic.Cnf.Core
import IsaLogic.Cover.Pla
import IsaLogic.Formula.Fingerprint

/-!
# Engines

An engine answers questions about formulas. Its limits choose between
algorithms, and three of the algorithms can be exchanged: the solver of clause
lists, the minimizer of covers and the extractor of minimal unsatisfiable
subsets. All three may fail. Formulas are told apart by their fingerprints.
-/

namespace IsaLogic

/-- The sizes at which an engine changes its algorithm. -/
structure Limits where
  /-- The most distinct terms for which satisfiability is decided by enumeration. -/
  bruteForceMaxTerms : Nat := 8
  /-- The most occurrences of terms for which it is. -/
  bruteForceMaxLiterals : Nat := 32
  /-- The budget of clauses for an equivalent conjunctive form. -/
  cnfExplosionLimit : Nat := 10
  /-- With more distinct terms, an equivalent conjunctive form is not tried. -/
  tseytinTermThreshold : Nat := 4
  /-- With more occurrences of terms, it is not tried either. -/
  tseytinLiteralThreshold : Nat := 10
  /-- The most distinct terms for which minimization is exact. -/
  exactMinimizeMaxTerms : Nat := 4
  /-- The most distinct terms for which a minimizer is given a truth table. -/
  heuristicMinimizeMaxTerms : Nat := 16
  /-- The most cubes a minimizer is given otherwise. -/
  minimizeMaxCubes : Nat := 4096
  /-- The most clauses for which all minimal unsatisfiable subsets are found. -/
  exhaustiveMusMaxClauses : Nat := 12
deriving DecidableEq, Repr, Inhabited

/-- An engine for questions about formulas. -/
structure Engine where
  limits : Limits
  /-- Decide a clause list. -/
  solve : Cnf → Except QueryError SatResult
  /-- What messages call the minimizer. -/
  minimizerName : String
  /-- Find a small cover of the same points. -/
  minimizeCover : Pla → Except QueryError Pla
  /-- Find minimal unsatisfiable subsets, as places in the clause list. -/
  extract : Cnf → Except QueryError (List (List Nat))
  fingerprint : Formula → Bytes := Formula.fingerprint

namespace Engine

/-- The engine that needs no other program. -/
def inProcess (limits : Limits) : Engine where
  limits
  solve cnf := .ok cnf.solve
  minimizerName := "expand-irredundant"
  minimizeCover pla := .ok pla.minimize
  extract cnf := .ok (Core.extract limits.exhaustiveMusMaxClauses cnf)

/-- Exchange the solver for one that gives the same verdict always. -/
def withVerdict (engine : Engine) (verdict : Bool) : Engine :=
  { engine with
    solve := fun _ => .ok (if verdict then .satisfiable [] else .unsatisfiable) }

/-- Exchange the minimizer for one that gives the same cover always. -/
def withCover (engine : Engine) (cubes : List Cube) : Engine :=
  { engine with
    minimizerName := "stub-minimizer"
    minimizeCover := fun pla => .ok { pla with cubes } }

/-- Exchange the extractor for one that gives the same subsets always. -/
def withCores (engine : Engine) (cores : List (List Nat)) : Engine :=
  { engine with extract := fun _ => .ok cores }

end Engine

end IsaLogic
