import IsaLogic.Formula.Basic

/-!
# Shapes of formulas

Literals, and the two-level forms: conjunctions of disjunctions of literals
(conjunctive) and the dual (disjunctive). A flat form has one level of each; a
nested form is flat once directly nested connectives of a kind are merged. The
constants have both forms.

A two-level formula is read as a list of groups of literals, and built from one.
-/

namespace IsaLogic

/-- The two two-level forms. -/
inductive TwoLevel where
  /-- A conjunction of disjunctions of literals. -/
  | conjunctive
  /-- A disjunction of conjunctions of literals. -/
  | disjunctive
deriving DecidableEq, Repr

namespace Formula

/-- The literal a formula is. -/
def literal? : Formula → Option Literal
  | .atom term => some { term, positive := true }
  | .neg (.atom term) => some { term, positive := false }
  | _ => none

/-- Whether a formula is a literal. -/
def isLiteral (f : Formula) : Bool := f.literal?.isSome

/-- A literal, or the inner connective of a two-level form over literals. -/
def isFlatGroup (form : TwoLevel) (f : Formula) : Bool :=
  f.isLiteral ||
    match form, f with
    | .conjunctive, .disj fs => fs.all isLiteral
    | .disjunctive, .conj fs => fs.all isLiteral
    | _, _ => false

/-- Whether a formula has a flat two-level form. -/
def isFlat (form : TwoLevel) (f : Formula) : Bool :=
  match form, f with
  | _, .constant _ => true
  | .conjunctive, .conj fs => fs.all (isFlatGroup .conjunctive)
  | .disjunctive, .disj fs => fs.all (isFlatGroup .disjunctive)
  | form, f => f.isFlatGroup form

/-- Whether a formula is a flat conjunctive form. -/
def isCnf (f : Formula) : Bool := f.isFlat .conjunctive

/-- Whether a formula is a flat disjunctive form. -/
def isDnf (f : Formula) : Bool := f.isFlat .disjunctive

mutual

/-- A literal, or nested inner connectives of a two-level form over literals. -/
def isNestedGroup (form : TwoLevel) : Formula → Bool
  | .atom _ => true
  | .neg (.atom _) => true
  | .conj fs => form = .disjunctive && areNestedGroups form fs
  | .disj fs => form = .conjunctive && areNestedGroups form fs
  | _ => false

/-- Whether all of some formulas are nested groups. -/
def areNestedGroups (form : TwoLevel) : List Formula → Bool
  | [] => true
  | f :: fs => isNestedGroup form f && areNestedGroups form fs

end

mutual

/-- Whether a formula has a two-level form up to merging nested connectives. -/
def isNested (form : TwoLevel) : Formula → Bool
  | .constant _ => true
  | .conj fs =>
    match form with
    | .conjunctive => areNested .conjunctive fs
    | .disjunctive => areNestedGroups .disjunctive fs
  | .disj fs =>
    match form with
    | .conjunctive => areNestedGroups .conjunctive fs
    | .disjunctive => areNested .disjunctive fs
  | f => isNestedGroup form f

/-- Whether all of some formulas have a nested two-level form. -/
def areNested (form : TwoLevel) : List Formula → Bool
  | [] => true
  | f :: fs => isNested form f && areNested form fs

end

/-- The literals of a group. -/
def groupLiterals (f : Formula) : List Literal :=
  match f.literal? with
  | some literal => [literal]
  | none => f.operands.filterMap literal?

/-- The groups of a formula in a two-level form. The constant that the outer
connective makes of nothing has no groups; the other has one empty group. -/
def groups (form : TwoLevel) (f : Formula) : List (List Literal) :=
  match form, f with
  | .conjunctive, .constant true | .disjunctive, .constant false => []
  | .conjunctive, .constant false | .disjunctive, .constant true => [[]]
  | .conjunctive, .conj fs | .disjunctive, .disj fs => fs.map groupLiterals
  | _, f => [f.groupLiterals]

/-- The clauses of a flat conjunctive form. -/
def clauses? (f : Formula) : Option (List (List Literal)) :=
  if f.isCnf then some (f.groups .conjunctive) else none

/-- The cubes of a flat disjunctive form. -/
def cubes? (f : Formula) : Option (List (List Literal)) :=
  if f.isDnf then some (f.groups .disjunctive) else none

/-- The conjunctive form with the given clauses. -/
def ofClauses (clauses : List (List Literal)) : Formula :=
  allOf (clauses.map fun clause => anyOf (clause.map Literal.toFormula))

/-- The disjunctive form with the given cubes. -/
def ofCubes (cubes : List (List Literal)) : Formula :=
  anyOf (cubes.map fun cube => allOf (cube.map Literal.toFormula))

/-- The two-level formula with the given groups. -/
def ofGroups : TwoLevel → List (List Literal) → Formula
  | .conjunctive, clauses => ofClauses clauses
  | .disjunctive, cubes => ofCubes cubes

end Formula

end IsaLogic
