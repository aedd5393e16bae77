import IsaLogic.Formula.Basic

/-!
# Truth of formulas

`holds` is truth under a valuation, which gives every term a truth value.
`verdict` is the same question asked of incomplete knowledge. An assignment
lists the values of some terms; terms it does not list are false.
-/

namespace IsaLogic

namespace Formula

/-- Truth under a valuation of the terms. -/
def holds (valuation : Term → Bool) : Formula → Bool :=
  fold {
    constant := id
    atom := valuation
    neg := not
    conj := fun results => results.all id
    disj := fun results => results.any id
    exactlyOne := fun results => results.count true == 1
    noneOf := fun results => !results.any id
    implies := fun a b => !a || b }

/-- Three-valued truth under what is known of the terms. -/
def verdict (known : Term → Verdict) : Formula → Verdict :=
  fold {
    constant := Verdict.ofBool
    atom := known
    neg := Verdict.negate
    conj := Verdict.all
    disj := Verdict.any
    exactlyOne := Verdict.exactlyOne
    noneOf := Verdict.none
    implies := Verdict.implies }

/-- Put constants for the terms whose value is known. -/
def substitute (known : Term → Verdict) : Formula → Formula :=
  fold {
    constant := .constant
    atom := fun term =>
      match known term with
      | .yes => verum
      | .no => falsum
      | .maybe => .atom term
    neg := .neg
    conj := allOf
    disj := anyOf
    exactlyOne := oneOf
    noneOf := nor
    implies := .implies }

end Formula

/-- The values of some terms. -/
abbrev Assignment := List (Term × Bool)

namespace Assignment

/-- The value of a term; a term that is not listed is false. -/
def value (assignment : Assignment) (term : Term) : Bool :=
  (lookup? term assignment).getD false

/-- All assignments of some terms, counting in binary: the first term is the
most significant digit, and false comes before true. -/
def allOf : List Term → List Assignment
  | [] => [[]]
  | term :: rest =>
    let assignments := allOf rest
    assignments.map ((term, false) :: ·) ++ assignments.map ((term, true) :: ·)

end Assignment

namespace Formula

/-- Whether some assignment of its terms makes a formula true, by trying all. -/
def satisfiableByEnumeration (f : Formula) : Bool :=
  (Assignment.allOf f.terms).any fun assignment => f.holds assignment.value

end Formula

end IsaLogic
