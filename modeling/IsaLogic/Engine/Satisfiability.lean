import IsaLogic.Cnf.Encoding
import IsaLogic.Engine.Memory
import IsaLogic.Formula.Eval
import IsaLogic.Formula.Tseytin

/-!
# Satisfiability, equivalence and implication

A small formula is decided by enumeration. A larger one is turned into a
conjunctive form that is satisfiable in the same cases, which the engine's solver
decides; such verdicts are kept in the engine's cache only. Equivalence and
implication are the unsatisfiability of a counterexample.
-/

namespace IsaLogic

namespace Limits

/-- Whether a formula is small enough for enumeration. -/
def allowsEnumeration (limits : Limits) (f : Formula) : Bool :=
  f.terms.length ≤ limits.bruteForceMaxTerms && f.occurrences.length ≤ limits.bruteForceMaxLiterals

/-- Whether an equivalent conjunctive form is worth trying. -/
def allowsDistribution (limits : Limits) (f : Formula) : Bool :=
  f.terms.length ≤ limits.tseytinTermThreshold &&
    f.occurrences.length ≤ limits.tseytinLiteralThreshold

/-- A conjunctive form that is satisfiable in the same cases as a formula: an
equivalent one if the formula is small and the form stays within its budget, else
one with synthetic variables. -/
def equisatisfiable (limits : Limits) (f : Formula) (next : Nat) : Formula × Nat :=
  if limits.allowsDistribution f then
    match f.equivalentForm .conjunctive (some limits.cnfExplosionLimit) with
    | .ok cnf => (cnf, next)
    | .error _ => f.tseytin next
  else f.tseytin next

end Limits

namespace Engine

/-- The conjunctive form of a tree that is satisfiable in the same cases. A tree
in conjunctive form is its own; the form of any other is made once and noted. -/
def equisatCnf (engine : Engine) (tree : Tree) : Query Tree := do
  match (← Query.notes tree).cnf with
  | some cnf => return cnf
  | none =>
    let cnf ←
      if tree.formula.isCnf then pure tree
      else do
        let formula ← Query.numbering (engine.limits.equisatisfiable tree.formula)
        Query.hold formula
    Query.note tree fun notes => { notes with cnf := some cnf }
    return cnf

/-- Ask the solver whether a tree is satisfiable. -/
def askSolver (engine : Engine) (tree : Tree) : Query Bool := do
  let cnf ← engine.equisatCnf tree
  let encoding ← liftM (Encoding.ofFormula cnf.formula)
  let result ← liftM (engine.solve encoding.cnf)
  return result.isSatisfiable

/-- Whether some valuation of the terms makes a tree true. -/
def satisfiable (engine : Engine) (tree : Tree) : Query Bool := do
  match (← Query.notes tree).verdict, tree.formula with
  | some verdict, _ => return verdict
  | none, .constant value => return value
  | none, formula =>
    if engine.limits.allowsEnumeration formula then
      let verdict := formula.satisfiableByEnumeration
      Query.note tree fun notes => { notes with verdict := some verdict }
      return verdict
    else
      Query.remembering Cache.verdicts
        (fun cache entry => { cache with verdicts := entry :: cache.verdicts })
        (engine.fingerprint formula) (engine.askSolver tree)

/-- Whether no valuation of the terms makes a tree true. -/
def unsatisfiable (engine : Engine) (tree : Tree) : Query Bool :=
  return !(← engine.satisfiable tree)

/-- Whether two formulas are true under the same valuations. -/
def equivalent (engine : Engine) (f g : Formula) : Query Bool :=
  if f == g then return true
  else engine.unsatisfiable (Tree.passing (Formula.oneOf [f, g]))

/-- Whether every valuation that makes one formula true makes the other true. -/
def alwaysImplies (engine : Engine) (f g : Formula) : Query Bool :=
  engine.unsatisfiable (Tree.passing (Formula.allOf [f, .neg g]))

end Engine

end IsaLogic
