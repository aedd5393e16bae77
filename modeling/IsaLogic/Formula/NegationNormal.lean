import IsaLogic.Formula.Basic

/-!
# Negation normal form and binary form

In negation normal form only conjunctions, disjunctions, constants and literals
are left. The form is read off with a polarity: for every formula both the form
of it and the form of its negation are known. In binary form conjunctions and
disjunctions have two operands.
-/

namespace IsaLogic.Formula

/-- All pairs of elements at two different places, earlier place first. -/
def pairs {α : Type} : List α → List (α × α)
  | [] => []
  | x :: rest => rest.map (fun y => (x, y)) ++ pairs rest

/-- One operand holds and the others do not, for each operand in turn. -/
def oneHolds (holding failing : List Formula) : Formula :=
  anyOf (holding.zipIdx.map fun (f, place) => allOf (f :: failing.eraseIdx place))

/-- No operand holds, or two of them do. -/
def notOneHolds (holding failing : List Formula) : Formula :=
  anyOf (allOf failing :: (pairs holding).map fun (f, g) => allOf [f, g])

/-- The negation normal forms of a formula (polarity true) and of its negation
(polarity false). -/
def nnfWith : Formula → Bool → Formula :=
  fold {
    constant := fun value polarity => .constant (value == polarity)
    atom := fun term polarity => if polarity then .atom term else .neg (.atom term)
    neg := fun f polarity => f !polarity
    conj := fun fs polarity =>
      let parts := fs.map (· polarity)
      if polarity then allOf parts else anyOf parts
    disj := fun fs polarity =>
      let parts := fs.map (· polarity)
      if polarity then anyOf parts else allOf parts
    exactlyOne := fun fs polarity =>
      let holding := fs.map (· true)
      let failing := fs.map (· false)
      if polarity then oneHolds holding failing else notOneHolds holding failing
    noneOf := fun fs polarity =>
      let parts := fs.map (· !polarity)
      if polarity then allOf parts else anyOf parts
    implies := fun a b polarity =>
      if polarity then anyOf [a false, b true] else allOf [a true, b false] }

/-- Negation normal form. -/
def nnf (f : Formula) : Formula := f.nnfWith true

/-- A chain of a binary connective, leaning to the left. -/
def chain (connect : Formula → Formula → Formula) (empty : Formula) : List Formula → Formula
  | [] => empty
  | f :: rest => rest.foldl connect f

/-- Conjunctions and disjunctions of two operands each. -/
def binary : Formula → Formula :=
  fold {
    constant := .constant
    atom := .atom
    neg := .neg
    conj := chain (fun f g => .conj [f, g]) verum
    disj := chain (fun f g => .disj [f, g]) falsum
    exactlyOne := oneOf
    noneOf := nor
    implies := .implies }

end IsaLogic.Formula
