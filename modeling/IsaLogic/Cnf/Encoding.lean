import IsaLogic.Cnf.Basic
import IsaLogic.Formula.Distribute

/-!
# Formulas as clause lists

The clauses of a conjunctive form with its terms numbered from one in ascending
order, and the way back.
-/

namespace IsaLogic

/-- A clause list with the term behind each variable. -/
structure Encoding where
  cnf : Cnf
  /-- The term at place `i` is variable `i + 1`. -/
  terms : List Term

namespace Encoding

/-- The clauses of a formula in conjunctive form. -/
def ofFormula (f : Formula) : Except QueryError Encoding :=
  match f.clauses? with
  | none => .error (.notCnf f.text)
  | some clauses =>
    let terms := f.terms
    let numbered := fun (literal : Literal) =>
      let number : Int := terms.idxOf literal.term + 1
      if literal.positive then number else -number
    .ok { cnf := { numVars := terms.length, clauses := clauses.map (·.map numbered) }, terms }

/-- The assignment that a model describes. Variables the model leaves out are false. -/
def decodeModel (encoding : Encoding) (model : List Int) : Assignment :=
  encoding.terms.zipIdx.map fun (term, place) => (term, model.contains ((place : Int) + 1))

/-- The literal a number stands for. -/
def decodeLiteral (terms : List Term) (literal : Int) : Except QueryError Literal :=
  let missing := QueryError.dimacs 0
    ("variable " ++ toString (Cnf.literalSize literal) ++ " has no term")
  match literal.natAbs with
  | 0 => .error missing
  | place + 1 =>
    match terms[place]? with
    | none => .error missing
    | some term => .ok { term, positive := 0 < literal }

/-- The literals of a clause. -/
def decodeClause (terms : List Term) (clause : List Int) : Except QueryError (List Literal) :=
  clause.mapM (decodeLiteral terms)

/-- The formula of one clause. -/
def clauseFormula (encoding : Encoding) (index : Nat) : Except QueryError Formula :=
  match encoding.cnf.clauses[index]? with
  | none => .error (.dimacs 0 ("no clause " ++ toString index))
  | some clause =>
    (decodeClause encoding.terms clause).map fun literals =>
      Formula.anyOf (literals.map Literal.toFormula)

/-- The formula of a clause list over terms. -/
def toFormula (terms : List Term) (cnf : Cnf) : Except QueryError Formula :=
  (cnf.clauses.mapM (decodeClause terms)).map Formula.ofClauses

end Encoding

end IsaLogic
