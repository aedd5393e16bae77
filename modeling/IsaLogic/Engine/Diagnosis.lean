import IsaLogic.Engine.Satisfiability
import IsaLogic.Formula.Simplify

/-!
# Diagnosis

Why a formula is unsatisfiable: minimal sets of its clauses that cannot hold
together. Each conjunct of the formula is turned into clauses over its own terms.
A conjunct for which these would be too many is kept whole; then one minimal set
of clauses and conjuncts is found by deletion.
-/

namespace IsaLogic

/-- The units a formula is the conjunction of. -/
structure Units where
  /-- The distinct clauses, in order. -/
  clauses : List (List Literal) := []
  /-- The conjuncts that are kept whole. -/
  whole : List Formula := []

namespace Units

/-- Add the clauses of a conjunct, or the conjunct itself if they are too many. -/
def add (limit : Nat) (units : Units) (conjunct : Formula) : Units :=
  match conjunct.equivalentGroups .conjunctive (some limit) with
  | .ok clauses => { units with clauses := (units.clauses ++ clauses).eraseDups }
  | .error _ => { units with whole := units.whole ++ [conjunct] }

/-- The units of a formula. -/
def ofFormula (limit : Nat) (f : Formula) : Units :=
  let conjuncts := match f.flatten with
    | .conj fs => fs
    | flat => [flat]
  conjuncts.foldl (add limit) {}

/-- The formula of each unit: the clauses first. -/
def formulas (units : Units) : List Formula :=
  (units.clauses.map fun clause => Formula.anyOf (clause.map Literal.toFormula)) ++ units.whole

end Units

namespace Engine

/-- The conjunction of the formulas at some places. -/
def conjoin (formulas : List Formula) (places : List Nat) : Formula :=
  Formula.allOf (places.filterMap fun place => formulas[place]?)

/-- One minimal set of formulas that cannot hold together, if there is any. -/
def coreByDeletion (engine : Engine) (formulas : List Formula) : Query (List Formula) := do
  let unsat := fun places => engine.unsatisfiable (Tree.passing (conjoin formulas places))
  let all := List.range formulas.length
  if ← unsat all then return [conjoin formulas (← Core.shrink unsat all)]
  else return []

/-- The minimal sets of clauses that the extractor of the engine finds. -/
def coresByExtraction (engine : Engine) (clauses : List (List Literal)) :
    Except QueryError (List Formula) := do
  let encoding ← Encoding.ofFormula (Formula.ofClauses clauses)
  let subsets ← engine.extract encoding.cnf
  subsets.mapM fun places => return Formula.allOf (← places.mapM encoding.clauseFormula)

/-- Minimal sets of units of a formula that cannot hold together, each as their
conjunction. A satisfiable formula has none. -/
def cores (engine : Engine) (f : Formula) : Query (List Formula) :=
  Query.remembering Cache.cores (fun cache entry => { cache with cores := entry :: cache.cores })
    (engine.fingerprint f) do
      let units := Units.ofFormula engine.limits.cnfExplosionLimit f
      if units.whole.isEmpty then liftM (engine.coresByExtraction units.clauses)
      else engine.coreByDeletion units.formulas

end Engine

end IsaLogic
