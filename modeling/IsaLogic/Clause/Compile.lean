import IsaLogic.Clause.Basic

/-!
# Clauses and formulas

`Clause.compile` is the formula a clause means, one connective for each kind of
clause. `Formula.toClause` is the clause that means a formula: versions are
written in full, and only a synthetic variable has no clause.
-/

namespace IsaLogic

/-- The requirement an extension clause states. Without a version, any will do. -/
def ExtensionTerm.ofClause (name : String) :
    Option String → Except ConditionError ExtensionTerm
  | none => .ok (ExtensionTerm.any name)
  | some requirement =>
    match Requirement.parse requirement.toList with
    | .ok parsed => .ok { name, op := parsed.op, version := parsed.version }
    | .error cause => .error (.invalidVersion requirement cause)

namespace Clause

mutual

/-- The formula a clause means. -/
def compile : Clause → Except ConditionError Formula
  | bool value => .ok (.constant value)
  | allOf clauses => return Formula.allOf (← compileList clauses)
  | anyOf clauses => return Formula.anyOf (← compileList clauses)
  | oneOf clauses => return Formula.oneOf (← compileList clauses)
  | noneOf clauses => return Formula.nor (← compileList clauses)
  | negation clause => return .neg (← compile clause)
  | ifThen condition consequence => do
    let antecedent ← compile condition
    let consequent ← compile consequence
    return .implies antecedent consequent
  | extension name version => return .atom (.extension (← ExtensionTerm.ofClause name version))
  | param term => .ok (.atom (.parameter term))
  | xlen width => .ok (.atom (.xlen width))

/-- The formulas some clauses mean; the first error decides. -/
def compileList : List Clause → Except ConditionError (List Formula)
  | [] => .ok []
  | clause :: rest => do
    let first ← compile clause
    let others ← compileList rest
    return first :: others

end

end Clause

/-- The clause of a term. An extension at any version is written without one. -/
def Term.toClause : Term → Except ConditionError Clause
  | .extension term =>
    if term = ExtensionTerm.any term.name then .ok (.extension term.name none)
    else .ok (.extension term.name (some term.requirement))
  | .parameter term => .ok (.param (ParamTerm.make term.name term.scope term.comparison))
  | .xlen width => .ok (.xlen width)
  | .free _ => .error .freeTermInClause

namespace Formula

mutual

/-- The clause that means a formula. -/
def toClause : Formula → Except ConditionError Clause
  | .constant value => .ok (.bool value)
  | .atom term => term.toClause
  | .neg f => return .negation (← toClause f)
  | .conj fs => return .allOf (← toClauses fs)
  | .disj fs => return .anyOf (← toClauses fs)
  | .exactlyOne fs => return .oneOf (← toClauses fs)
  | .noneOf fs => return .noneOf (← toClauses fs)
  | .implies a b => do
    let condition ← toClause a
    let consequence ← toClause b
    return .ifThen condition consequence

/-- The clauses that mean some formulas; the first error decides. -/
def toClauses : List Formula → Except ConditionError (List Clause)
  | [] => .ok []
  | f :: fs => do
    let first ← toClause f
    let others ← toClauses fs
    return first :: others

end

end Formula

end IsaLogic
