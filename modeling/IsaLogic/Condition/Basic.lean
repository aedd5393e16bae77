import IsaLogic.Clause.Compile
import IsaLogic.Configuration.Basic
import IsaLogic.Database.Expansion
import IsaLogic.Engine.Diagnosis
import IsaLogic.Engine.Minimization
import IsaLogic.Formula.Render

/-!
# Conditions

A condition is a clause together with the formula it means. Questions of
satisfiability are asked of the expanded formula, so that what the database says
of the terms holds; a configuration decides the terms of the formula itself.
-/

namespace IsaLogic

/-- A question about conditions. -/
abbrev Inquiry := ExceptT ConditionError (StateM Memory)

namespace Inquiry

/-- A question to an engine as a question about conditions. -/
def ofQuery {α : Type} (query : Query α) : Inquiry α := ExceptT.adapt ConditionError.query query

end Inquiry

/-- A clause and the formula it means. -/
structure Condition where
  clause : Clause
  formula : Formula
deriving Inhabited

/-- An extension that a condition requires or rules out, and when it does. -/
structure ConditionalExtension where
  extension : ExtensionTerm
  condition : Condition

namespace Condition

/-- The condition of a clause. -/
def ofClause (clause : Clause) : Except ConditionError Condition :=
  clause.compile.map fun formula => { clause, formula }

/-- The condition of a formula; synthetic variables have no clause. -/
def ofFormula (formula : Formula) : Except ConditionError Condition :=
  formula.toClause.map fun clause => { clause, formula }

/-- The condition that always holds, or never. -/
def constant (value : Bool) : Condition :=
  { clause := .bool value, formula := .constant value }

/-- Both conditions. -/
def both (left right : Condition) : Condition where
  clause := .allOf [left.clause, right.clause]
  formula := Formula.allOf [left.formula, right.formula]

/-- At least one of the conditions. -/
def either (left right : Condition) : Condition where
  clause := .anyOf [left.clause, right.clause]
  formula := Formula.anyOf [left.formula, right.formula]

/-- The opposite condition. -/
def negate (condition : Condition) : Condition where
  clause := .negation condition.clause
  formula := .neg condition.formula

/-- The one condition implies the other. -/
def implies (left right : Condition) : Condition where
  clause := .ifThen left.clause right.clause
  formula := .implies left.formula right.formula

/-- The formula with what the database says of its terms. -/
def expanded (db : Database) (condition : Condition) : Except ConditionError Formula :=
  db.expand condition.formula

/-- Whether the database allows the condition to hold. -/
def satisfiable (engine : Engine) (db : Database) (condition : Condition) : Inquiry Bool := do
  let formula ← liftM (condition.expanded db)
  Inquiry.ofQuery (engine.satisfiable (Tree.passing formula))

/-- Whether the database rules the condition out. -/
def unsatisfiable (engine : Engine) (db : Database) (condition : Condition) : Inquiry Bool :=
  return !(← condition.satisfiable engine db)

/-- Whether the database rules a formula out. -/
def neverHolds (engine : Engine) (db : Database) (formula : Formula) : Inquiry Bool := do
  let formula ← liftM (db.expand formula)
  Inquiry.ofQuery (engine.unsatisfiable (Tree.passing formula))

/-- Whether two conditions agree wherever the database allows. -/
def equivalent (engine : Engine) (db : Database) (left right : Condition) : Inquiry Bool :=
  neverHolds engine db (Formula.oneOf [left.formula, right.formula])

/-- Whether one condition implies the other wherever the database allows. -/
def alwaysImplies (engine : Engine) (db : Database) (left right : Condition) : Inquiry Bool :=
  neverHolds engine db (Formula.allOf [left.formula, .neg right.formula])

/-- The verdict of a configuration. -/
def satisfiedBy (condition : Condition) (db : Database) (config : Configuration) : Verdict :=
  condition.formula.verdict (config.evaluate db)

/-- What is left of a condition once the known terms are settled. -/
def settle (condition : Condition) (known : Term → Verdict) : Except ConditionError Condition :=
  ofFormula (condition.formula.partialEvaluate known)

/-- What is left of a condition under a configuration. -/
def partiallyEvaluate (condition : Condition) (db : Database) (config : Configuration) :
    Except ConditionError Condition :=
  condition.settle (config.evaluate db)

/-- What the values of parameters say of a term. -/
def knownParams (params : List (String × ParamValue)) : Term → Verdict
  | .parameter param => param.evaluate (lookup? param.name params)
  | _ => .maybe

/-- What is left of a condition once parameters have values. -/
def partiallyEvaluateForParams (condition : Condition) (params : List (String × ParamValue)) :
    Except ConditionError Condition :=
  condition.settle (knownParams params)

/-- The extensions that a clause forces, each under the negation of the other
literals. -/
def forcedBy (positive : Bool) (clause : List Literal) :
    Except ConditionError (List ConditionalExtension) :=
  clause.zipIdx.filterMapM fun (literal, place) =>
    match literal.term with
    | .extension extension =>
      if literal.positive = positive then do
        let others := clause.eraseIdx place
        let residual := Formula.allOf (others.map fun other => other.negated.toFormula)
        return some { extension, condition := ← ofFormula residual }
      else return none
    | _ => return none

/-- The clauses of a small conjunctive form. -/
def smallClauses (engine : Engine) (condition : Condition) : Query (List (List Literal)) := do
  let form ← engine.minimize .conjunctive condition.formula
  match form.clauses? with
  | some clauses => return clauses
  | none => liftM (form.equivalentGroups .conjunctive none)

/-- The extensions that a condition requires, or rules out, and when it does: they
are read off the clauses of a small conjunctive form. -/
def impliedExtensions (engine : Engine) (positive : Bool) (condition : Condition) :
    Inquiry (List ConditionalExtension) := do
  let clauses ← Inquiry.ofQuery (condition.smallClauses engine)
  return (← liftM (clauses.mapM (forcedBy positive))).flatten

/-- Minimal sets of constraints that cannot hold together, taken from the expanded
formula; none if the condition can hold. -/
def explainUnsatisfiable (engine : Engine) (db : Database) (condition : Condition) :
    Inquiry (List Condition) := do
  let formula ← liftM (condition.expanded db)
  let cores ← Inquiry.ofQuery (engine.cores formula)
  liftM (cores.mapM ofFormula)

/-- The declarative form of the formula. -/
def toJson (condition : Condition) : Except ConditionError Json :=
  condition.formula.toClause.map Clause.toJson

end Condition

end IsaLogic
