import IsaLogic.Formula.NegationNormal
import IsaLogic.Formula.Shape
import IsaLogic.Formula.Simplify

/-!
# The Tseytin encoding

A conjunctive form with the same satisfiability. Every conjunction and
disjunction of the negation normal form gets a synthetic variable, and clauses
that make the variable stand for it. Variables are numbered from a counter that
the encoding takes and gives back, so different encodings share none.
-/

namespace IsaLogic.Formula

/-- The literal that stands for a formula, the clauses that define it, and the
next free number. -/
structure Encoded where
  literal : Literal
  clauses : List (List Literal)
  next : Nat

/-- Clauses saying that `var` stands for the conjunction of `literals`. -/
def defineConj (var : Literal) (literals : List Literal) : List (List Literal) :=
  literals.map (fun l => [var.negated, l]) ++ [var :: literals.map Literal.negated]

/-- Clauses saying that `var` stands for the disjunction of `literals`. -/
def defineDisj (var : Literal) (literals : List Literal) : List (List Literal) :=
  literals.map (fun l => [var, l.negated]) ++ [var.negated :: literals]

mutual

/-- Encode a formula in negation normal form. A variable is numbered before
those of the operands. The numbers have no bound here; those of an actual run stay
below `2 ^ 64`, as there is one for each connective encoded. -/
def encode : Formula → Nat → Encoded
  | .atom term, next => { literal := { term, positive := true }, clauses := [], next }
  | .neg (.atom term), next => { literal := { term, positive := false }, clauses := [], next }
  | .conj fs, next =>
    let var : Literal := { term := .free next, positive := true }
    let (literals, clauses, next) := encodeList fs (next + 1)
    { literal := var, clauses := clauses ++ defineConj var literals, next }
  | .disj fs, next =>
    let var : Literal := { term := .free next, positive := true }
    let (literals, clauses, next) := encodeList fs (next + 1)
    { literal := var, clauses := clauses ++ defineDisj var literals, next }
  | .constant true, next =>
    let var : Literal := { term := .free next, positive := true }
    { literal := var, clauses := [[var]], next := next + 1 }
  | _, next =>
    let var : Literal := { term := .free next, positive := true }
    { literal := var, clauses := [[var.negated]], next := next + 1 }

/-- Encode some formulas, one after the other. -/
def encodeList : List Formula → Nat → List Literal × List (List Literal) × Nat
  | [], next => ([], [], next)
  | f :: fs, next =>
    let first := encode f next
    let (literals, clauses, next) := encodeList fs first.next
    (first.literal :: literals, first.clauses ++ clauses, next)

end

/-- A conjunctive form with the same satisfiability, and the next free number. -/
def tseytin (f : Formula) (next : Nat) : Formula × Nat :=
  let prepared := f.nnf.reduce.flatten
  if prepared.isConstant || prepared.isLiteral then (prepared, next)
  else
    let encoded := encode prepared next
    (ofClauses (encoded.clauses ++ [[encoded.literal]]), encoded.next)

end IsaLogic.Formula
