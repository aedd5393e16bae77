/-!
# Clause lists

A conjunctive form over numbered variables. A literal is a nonzero integer: the
number of a variable, negative if the variable is negated.
-/

namespace IsaLogic

/-- A list of clauses over variables numbered from one. -/
structure Cnf where
  numVars : Nat
  clauses : List (List Int)
deriving DecidableEq

/-- The answer to a satisfiability question. -/
inductive SatResult where
  /-- Satisfiable, with a model as signed variable numbers. -/
  | satisfiable (model : List Int)
  | unsatisfiable
deriving DecidableEq

namespace SatResult

/-- Whether the answer is that there is a model. -/
def isSatisfiable : SatResult → Bool
  | satisfiable _ => true
  | unsatisfiable => false

end SatResult

namespace Cnf

/-- Truth of a literal under a valuation of the variables. -/
def literalHolds (valuation : Nat → Bool) (literal : Int) : Bool :=
  if 0 < literal then valuation literal.natAbs else !valuation literal.natAbs

/-- Truth of all clauses under a valuation of the variables. -/
def clausesHold (valuation : Nat → Bool) (clauses : List (List Int)) : Bool :=
  clauses.all fun clause => clause.any (literalHolds valuation)

/-- The size of a literal. Literals are signed 32-bit words, and the least word
has no opposite, so it is its own size. -/
def literalSize (literal : Int) : Int := (Int32.ofInt literal).abs.toInt

/-- The text of a clause list in the DIMACS format. -/
def text (cnf : Cnf) : String :=
  let clauseText := fun (clause : List Int) =>
    String.join (clause.map fun literal => toString literal ++ " ") ++ "0\n"
  "p cnf " ++ toString cnf.numVars ++ " " ++ toString cnf.clauses.length ++ "\n" ++
    String.join (cnf.clauses.map clauseText)

end Cnf

end IsaLogic
