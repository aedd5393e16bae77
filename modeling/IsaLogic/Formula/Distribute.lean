import IsaLogic.Error
import IsaLogic.Formula.NegationNormal
import IsaLogic.Formula.Render
import IsaLogic.Formula.Shape
import IsaLogic.Formula.Simplify

/-!
# Equivalent two-level forms

A formula in negation normal form is multiplied out into groups of literals:
clauses of an equivalent conjunctive form, or cubes of an equivalent disjunctive
form. Multiplying out can explode, so a budget may be set: it counts the groups
that products of more than one group emit.
-/

namespace IsaLogic.Formula

/-- Groups of literals, and the number of groups emitted so far. -/
abbrev Emitted := List (List Literal) × Nat

/-- The product of two lists of groups: every group of one with every group of
the other. Products with more than one group on a side count against the budget. -/
def product (limit : Option Nat) (left right : List (List Literal)) (emitted : Nat) :
    Except QueryError Emitted :=
  let groups := left.flatMap fun l => right.map fun r => l ++ r
  if 1 < left.length || 1 < right.length then
    let emitted := emitted + groups.length
    match limit with
    | some limit =>
      if limit < emitted then .error (.sizeExplosion emitted limit) else .ok (groups, emitted)
    | none => .ok (groups, emitted)
  else .ok (groups, emitted)

mutual

/-- The groups of a formula in negation normal form. -/
def multiplyOut (form : TwoLevel) (limit : Option Nat) :
    Formula → Nat → Except QueryError Emitted
  | .atom term, emitted => .ok ([[{ term, positive := true }]], emitted)
  | .neg (.atom term), emitted => .ok ([[{ term, positive := false }]], emitted)
  | .constant value, emitted =>
    let neutral := match form with
      | .conjunctive => true
      | .disjunctive => false
    .ok (if value = neutral then [] else [[]], emitted)
  | .conj fs, emitted =>
    match form with
    | .conjunctive => sumOut form limit fs emitted
    | .disjunctive => productOut form limit fs emitted
  | .disj fs, emitted =>
    match form with
    | .conjunctive => productOut form limit fs emitted
    | .disjunctive => sumOut form limit fs emitted
  | f, _ => .error (.notCnf f.text)

/-- The groups of some formulas, one after the other. -/
def sumOut (form : TwoLevel) (limit : Option Nat) :
    List Formula → Nat → Except QueryError Emitted
  | [], emitted => .ok ([], emitted)
  | f :: fs, emitted => do
    let (groups, emitted) ← multiplyOut form limit f emitted
    let (rest, emitted) ← sumOut form limit fs emitted
    return (groups ++ rest, emitted)

/-- The product of the groups of some formulas, taken from the left. -/
def productOut (form : TwoLevel) (limit : Option Nat) :
    List Formula → Nat → Except QueryError Emitted
  | [], emitted => .ok ([[]], emitted)
  | f :: fs, emitted => do
    let (groups, emitted) ← multiplyOut form limit f emitted
    multiplyBy form limit groups fs emitted

/-- Multiply groups by those of some formulas, one after the other. -/
def multiplyBy (form : TwoLevel) (limit : Option Nat) (groups : List (List Literal)) :
    List Formula → Nat → Except QueryError Emitted
  | [], emitted => .ok (groups, emitted)
  | f :: fs, emitted => do
    let (right, emitted) ← multiplyOut form limit f emitted
    let (groups, emitted) ← product limit groups right emitted
    multiplyBy form limit groups fs emitted

end

/-- Whether a group holds a literal and its opposite. -/
def isContradictory (group : List Literal) : Bool :=
  group.any fun literal => group.contains literal.negated

/-- Groups with ascending literals, without contradictory and repeated groups.
An empty group stands alone. -/
def canonicalGroups (groups : List (List Literal)) : List (List Literal) :=
  let kept := ((groups.map ascending).filter (!isContradictory ·)).eraseDups
  if kept.contains [] then [[]] else kept

/-- The groups of the equivalent two-level form of a formula. -/
def equivalentGroups (form : TwoLevel) (limit : Option Nat) (f : Formula) :
    Except QueryError (List (List Literal)) := do
  let (groups, _) ← multiplyOut form limit f.nnf.reduce.binary 0
  return canonicalGroups groups

/-- The equivalent two-level form of a formula, within a budget of groups. -/
def equivalentForm (form : TwoLevel) (limit : Option Nat) (f : Formula) :
    Except QueryError Formula :=
  (f.equivalentGroups form limit).map (ofGroups form)

/-- The budget of groups when none is given. -/
def defaultExplosionLimit : Nat := 10

end IsaLogic.Formula
