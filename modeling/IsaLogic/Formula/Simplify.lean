import IsaLogic.Formula.Eval

/-!
# Flattening and simplification

`flatten` merges directly nested conjunctions, and directly nested disjunctions.
`reduce` also removes constants, repeated operands and double negations, and
notices an operand beside its own negation. Both work from the leaves to the
root, so each step sees operands that are in final form.
-/

namespace IsaLogic.Formula

/-- Operands, with those of nested conjunctions in their place. -/
def spliceConj (fs : List Formula) : List Formula :=
  fs.flatMap fun
    | .conj inner => inner
    | f => [f]

/-- Operands, with those of nested disjunctions in their place. -/
def spliceDisj (fs : List Formula) : List Formula :=
  fs.flatMap fun
    | .disj inner => inner
    | f => [f]

/-- Merge nested conjunctions and nested disjunctions. -/
def flatten : Formula → Formula :=
  fold {
    constant := .constant
    atom := .atom
    neg := .neg
    conj := fun fs => allOf (spliceConj fs)
    disj := fun fs => anyOf (spliceDisj fs)
    exactlyOne := oneOf
    noneOf := nor
    implies := .implies }

/-- The negation of a reduced formula, without a double negation. -/
def negateReduced : Formula → Formula
  | .constant value => .constant !value
  | .neg f => f
  | f => .neg f

/-- Whether one formula is the other with a negation in front. -/
def isComplement (f g : Formula) : Bool :=
  f == .neg g || g == .neg f

/-- Gather the operands of a junction: constants and repetitions are dropped.
`none` if the absorbing constant is among them, or an operand and its negation. -/
def gather (absorbing : Bool) (kept : List Formula) : List Formula → Option (List Formula)
  | [] => some kept
  | f :: rest =>
    if f = .constant absorbing then none
    else if f.isConstant || kept.contains f then gather absorbing kept rest
    else if kept.any (isComplement · f) then none
    else gather absorbing (kept ++ [f]) rest

/-- The conjunction of reduced formulas. -/
def reduceConj (fs : List Formula) : Formula :=
  match gather false [] (spliceConj fs) with
  | some kept => allOf kept
  | none => falsum

/-- The disjunction of reduced formulas. -/
def reduceDisj (fs : List Formula) : Formula :=
  match gather true [] (spliceDisj fs) with
  | some kept => anyOf kept
  | none => verum

/-- None of some reduced formulas. -/
def reduceNoneOf (fs : List Formula) : Formula :=
  if fs.contains verum then falsum
  else
    match (fs.filter (· ≠ falsum)).eraseDups with
    | [] => verum
    | [f] => negateReduced f
    | kept => .noneOf kept

/-- The formulas other than `f`. -/
def without (f : Formula) (fs : List Formula) : List Formula :=
  fs.filter (· ≠ f)

theorem length_without_lt {f : Formula} {fs : List Formula} (member : f ∈ fs) :
    (without f fs).length < fs.length := by
  rw [without, List.length_filter_lt_length_iff_exists]
  exact ⟨f, member, by simp⟩

/-- Exactly one of some reduced formulas that are no constants. An operand that
is listed twice can never be the one that holds. -/
def reduceDistinct (fs : List Formula) : Formula :=
  match found : fs.find? fun f => 1 < fs.count f with
  | none => oneOf fs
  | some twice =>
    have : (without twice fs).length < fs.length :=
      length_without_lt (List.mem_of_find?_eq_some found)
    reduceConj [negateReduced twice, reduceDistinct (without twice fs)]
termination_by fs.length

/-- Exactly one of some reduced formulas. -/
def reduceExactlyOne (fs : List Formula) : Formula :=
  let rest := fs.filter (!·.isConstant)
  match fs.count verum with
  | 0 => reduceDistinct rest
  | 1 => reduceNoneOf rest
  | _ => falsum

/-- An implication between reduced formulas. -/
def reduceImplies (a b : Formula) : Formula :=
  if a = verum then b
  else if a = falsum ∨ b = verum ∨ a = b then verum
  else if b = falsum then negateReduced a
  else .implies a b

/-- Simplify a formula by what its operands show at once. -/
def reduce : Formula → Formula :=
  fold {
    constant := .constant
    atom := .atom
    neg := negateReduced
    conj := reduceConj
    disj := reduceDisj
    exactlyOne := reduceExactlyOne
    noneOf := reduceNoneOf
    implies := reduceImplies }

/-- What is left of a formula once the known terms are put in. -/
def partialEvaluate (known : Term → Verdict) (f : Formula) : Formula :=
  (f.substitute known).reduce

end IsaLogic.Formula
