import IsaLogic.Cover.Prime
import IsaLogic.Formula.Distribute
import IsaLogic.Formula.Tseytin

/-!
# Operations

The operations that turn one formula into another, as values, so that a list of
them can be applied one after the other. An operation may take synthetic
variables, numbered from a counter that is passed along.
-/

namespace IsaLogic

/-- An operation on formulas. -/
inductive Operation where
  /-- Merge directly nested connectives of a kind. -/
  | flatten
  | reduce
  | nnf
  /-- Two operands at every conjunction and disjunction. -/
  | binary
  | tseytin
  | negate
  /-- The equivalent two-level form, within a budget of groups. -/
  | twoLevel (form : TwoLevel) (limit : Option Nat)
  | minimizeExact (form : TwoLevel)
deriving DecidableEq, Repr

namespace Operation

/-- Apply an operation, with the number of the next synthetic variable. -/
def apply (operation : Operation) (f : Formula) (next : Nat) :
    Except QueryError (Formula × Nat) :=
  match operation with
  | flatten => .ok (f.flatten, next)
  | reduce => .ok (f.reduce, next)
  | nnf => .ok (f.nnf, next)
  | binary => .ok (f.binary, next)
  | tseytin => .ok (f.tseytin next)
  | negate => .ok (.neg f, next)
  | twoLevel form limit => return (← f.equivalentForm form limit, next)
  | minimizeExact form => .ok (f.minimizeExact form, next)

/-- Apply operations in order; the first error decides. -/
def applyAll : List Operation → Formula → Nat → Except QueryError (Formula × Nat)
  | [], f, next => .ok (f, next)
  | operation :: rest, f, next => do
    let (f, next) ← operation.apply f next
    applyAll rest f next

/-- The outcome of each operation, applied to the last formula that came out well. -/
def trace : List Operation → Formula → Nat → List (Except QueryError Formula)
  | [], _, _ => []
  | operation :: rest, f, next =>
    match operation.apply f next with
    | .ok (f, next) => .ok f :: trace rest f next
    | .error error => .error error :: trace rest f next

end Operation

end IsaLogic
