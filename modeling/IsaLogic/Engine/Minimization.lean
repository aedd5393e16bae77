import IsaLogic.Cover.Prime
import IsaLogic.Engine.Memory
import IsaLogic.Formula.Distribute

/-!
# Minimization

A small formula is minimized exactly. One that is two-level already and has every
term once is only flattened. For all others the minimizer of the engine is given a
cover of the points at which the formula is true, or false for a conjunctive form.
The cover is read off a two-level form, or off a truth table if the form is too
large and the formula small enough.
-/

namespace IsaLogic

/-- No truth table has more terms than this. -/
def maxTruthTableTerms : Nat := 24

namespace Limits

/-- The groups of literals that say when a formula is true, or false for the
conjunctive form; none if they are more than a minimizer is given. -/
def inputGroups? (limits : Limits) (form : TwoLevel) (f : Formula) :
    Option (List (List Literal)) :=
  let limit := limits.minimizeMaxCubes
  let target := match form with
    | .conjunctive => Formula.neg f
    | .disjunctive => f
  let groups? :=
    match target.equivalentGroups .disjunctive (some limit) with
    | .ok groups => some groups
    | .error _ =>
      match (Formula.neg target).equivalentGroups .conjunctive (some limit) with
      | .ok groups => some (groups.map (List.map Literal.negated))
      | .error _ => none
  groups?.filter fun groups => groups.length ≤ limit

/-- The cover a minimizer is given, over the terms of a formula. -/
def inputCover (limits : Limits) (form : TwoLevel) (f : Formula) :
    Except QueryError (List Cube) :=
  match limits.inputGroups? form f with
  | some groups => .ok (groups.map (Cube.ofLiterals f.terms))
  | none =>
    if f.terms.length ≤ min limits.heuristicMinimizeMaxTerms maxTruthTableTerms then
      .ok ((TruthTable.ofFormula f).pointCubes form)
    else .error (.tooLargeToMinimize f.terms.length limits.minimizeMaxCubes)

end Limits

namespace Engine

/-- A small two-level form found by the minimizer of the engine. -/
def minimizeByCover (engine : Engine) (form : TwoLevel) (f : Formula) :
    Except QueryError Formula := do
  let terms := f.terms
  let cubes ← engine.limits.inputCover form f
  let cover ← engine.minimizeCover (Pla.ofLabels (terms.map Term.identifier) cubes)
  match cover.cubes.find? fun cube => cube.length ≠ terms.length with
  | some cube =>
    throw (.toolOutput engine.minimizerName
      ("cube has " ++ toString cube.length ++ " inputs, expected " ++ toString terms.length))
  | none => return coverFormula terms form cover.cubes

/-- A small two-level form of a formula. -/
def minimize (engine : Engine) (form : TwoLevel) (f : Formula) : Query Formula :=
  let count := f.terms.length
  if count ≤ engine.limits.exactMinimizeMaxTerms then return f.minimizeExact form
  else if f.isNested form && count == f.occurrences.length then return f.flatten
  else
    Query.remembering Cache.minimized
      (fun cache entry => { cache with minimized := entry :: cache.minimized })
      (engine.fingerprint f, form) (liftM (engine.minimizeByCover form f))

end Engine

end IsaLogic
