import IsaLogic.Term.Basic

/-!
# Formulas

Propositional formulas over terms, with connectives of any number of operands.
`exactlyOne` holds when one operand does, `noneOf` when none does.

`Formula.fold` reads a formula from its leaves to its root, given a `Reading`
that says what each connective makes of the results for its operands. Most
functions on formulas are readings, so the recursion is written once.

The collapsing constructors (`allOf`, `anyOf`, `oneOf`, `nor`) never build a
connective with fewer than two operands. `Formula.build?` checks instead.
-/

namespace IsaLogic

/-- A formula over terms. -/
inductive Formula where
  | constant (value : Bool)
  | atom (term : Term)
  | neg (operand : Formula)
  | conj (operands : List Formula)
  | disj (operands : List Formula)
  /-- One operand holds and no other does. -/
  | exactlyOne (operands : List Formula)
  /-- No operand holds. -/
  | noneOf (operands : List Formula)
  | implies (antecedent consequent : Formula)
deriving Inhabited

namespace Formula

/-- Proof by induction on formulas: a connective over a list may use the claim
for every operand in it. -/
@[elab_as_elim]
theorem induct {motive : Formula → Prop}
    (constant : ∀ value, motive (.constant value))
    (atom : ∀ term, motive (.atom term))
    (neg : ∀ f, motive f → motive (.neg f))
    (conj : ∀ fs, (∀ f ∈ fs, motive f) → motive (.conj fs))
    (disj : ∀ fs, (∀ f ∈ fs, motive f) → motive (.disj fs))
    (exactlyOne : ∀ fs, (∀ f ∈ fs, motive f) → motive (.exactlyOne fs))
    (noneOf : ∀ fs, (∀ f ∈ fs, motive f) → motive (.noneOf fs))
    (implies : ∀ a b, motive a → motive b → motive (.implies a b)) :
    ∀ f, motive f := by
  intro f
  refine @Formula.rec motive (fun fs => ∀ f ∈ fs, motive f)
    constant atom neg conj disj exactlyOne noneOf implies ?_ ?_ f
  · intro f member
    cases member
  · intro head tail headHolds tailHolds f member
    cases member with
    | head => exact headHolds
    | tail _ inTail => exact tailHolds f inTail

/-- What each connective makes of the results for its operands. -/
structure Reading (β : Type) where
  constant : Bool → β
  atom : Term → β
  neg : β → β
  conj : List β → β
  disj : List β → β
  exactlyOne : List β → β
  noneOf : List β → β
  implies : β → β → β

mutual

/-- Read a formula from its leaves to its root. -/
def fold {β : Type} (reading : Reading β) : Formula → β
  | .constant value => reading.constant value
  | .atom term => reading.atom term
  | .neg f => reading.neg (fold reading f)
  | .conj fs => reading.conj (foldList reading fs)
  | .disj fs => reading.disj (foldList reading fs)
  | .exactlyOne fs => reading.exactlyOne (foldList reading fs)
  | .noneOf fs => reading.noneOf (foldList reading fs)
  | .implies a b => reading.implies (fold reading a) (fold reading b)

/-- Read some formulas, each from its leaves to its root. -/
def foldList {β : Type} (reading : Reading β) : List Formula → List β
  | [] => []
  | f :: fs => fold reading f :: foldList reading fs

end

theorem foldList_eq_map {β : Type} (reading : Reading β) (fs : List Formula) :
    foldList reading fs = fs.map (fold reading) := by
  induction fs with
  | nil => rfl
  | cons f fs ih => rw [foldList, ih, List.map_cons]

mutual

/-- Structural equality. -/
def beq : Formula → Formula → Bool
  | .constant a, .constant b => a == b
  | .atom a, .atom b => a == b
  | .neg f, .neg g => beq f g
  | .conj fs, .conj gs => beqList fs gs
  | .disj fs, .disj gs => beqList fs gs
  | .exactlyOne fs, .exactlyOne gs => beqList fs gs
  | .noneOf fs, .noneOf gs => beqList fs gs
  | .implies a b, .implies c d => beq a c && beq b d
  | _, _ => false

/-- Structural equality of lists of formulas. -/
def beqList : List Formula → List Formula → Bool
  | [], [] => true
  | f :: fs, g :: gs => beq f g && beqList fs gs
  | _, _ => false

end

instance : BEq Formula := ⟨beq⟩

mutual

theorem beq_self (f : Formula) : beq f f = true := by
  cases f with
  | constant value => simp [beq]
  | atom term => simp [beq]
  | neg f => rw [beq]; exact beq_self f
  | conj fs => rw [beq]; exact beqList_self fs
  | disj fs => rw [beq]; exact beqList_self fs
  | exactlyOne fs => rw [beq]; exact beqList_self fs
  | noneOf fs => rw [beq]; exact beqList_self fs
  | implies a b => rw [beq, beq_self a, beq_self b]; rfl

theorem beqList_self (fs : List Formula) : beqList fs fs = true := by
  cases fs with
  | nil => rfl
  | cons f fs => rw [beqList, beq_self f, beqList_self fs]; rfl

end

mutual

theorem eq_of_beq_true (f g : Formula) (same : beq f g = true) : f = g := by
  cases f with
  | constant a => cases g <;> simp_all [beq]
  | atom a => cases g <;> simp_all [beq]
  | neg f =>
    cases g with
    | neg g => rw [eq_of_beq_true f g (by simpa [beq] using same)]
    | _ => simp [beq] at same
  | conj fs =>
    cases g with
    | conj gs => rw [eq_of_beqList_true fs gs (by simpa [beq] using same)]
    | _ => simp [beq] at same
  | disj fs =>
    cases g with
    | disj gs => rw [eq_of_beqList_true fs gs (by simpa [beq] using same)]
    | _ => simp [beq] at same
  | exactlyOne fs =>
    cases g with
    | exactlyOne gs => rw [eq_of_beqList_true fs gs (by simpa [beq] using same)]
    | _ => simp [beq] at same
  | noneOf fs =>
    cases g with
    | noneOf gs => rw [eq_of_beqList_true fs gs (by simpa [beq] using same)]
    | _ => simp [beq] at same
  | implies a b =>
    cases g with
    | implies c d =>
      simp only [beq, Bool.and_eq_true] at same
      rw [eq_of_beq_true a c same.1, eq_of_beq_true b d same.2]
    | _ => simp [beq] at same

theorem eq_of_beqList_true (fs gs : List Formula) (same : beqList fs gs = true) : fs = gs := by
  cases fs with
  | nil =>
    cases gs with
    | nil => rfl
    | cons g gs => simp [beqList] at same
  | cons f fs =>
    cases gs with
    | nil => simp [beqList] at same
    | cons g gs =>
      simp only [beqList, Bool.and_eq_true] at same
      rw [eq_of_beq_true f g same.1, eq_of_beqList_true fs gs same.2]

end

instance : LawfulBEq Formula where
  eq_of_beq {f g} same := eq_of_beq_true f g same
  rfl {f} := beq_self f

instance : DecidableEq Formula := instDecidableEqOfLawfulBEq

/-- The place of a formula's kind in the order of kinds; truth comes first. -/
def rank : Formula → Nat
  | .constant true => 0
  | .constant false => 1
  | .atom _ => 2
  | .neg _ => 3
  | .conj _ => 4
  | .disj _ => 5
  | .exactlyOne _ => 6
  | .noneOf _ => 7
  | .implies _ _ => 8

mutual

/-- Formulas compare by kind, and formulas of one kind by their parts. -/
def order : Formula → Formula → Ordering
  | .atom a, .atom b => compare a b
  | .neg f, .neg g => order f g
  | .conj fs, .conj gs => orderList fs gs
  | .disj fs, .disj gs => orderList fs gs
  | .exactlyOne fs, .exactlyOne gs => orderList fs gs
  | .noneOf fs, .noneOf gs => orderList fs gs
  | .implies a b, .implies c d => (order a c).then (order b d)
  | f, g => compare f.rank g.rank

/-- Lists of formulas compare position by position, and the shorter first. -/
def orderList : List Formula → List Formula → Ordering
  | [], [] => .eq
  | [], _ :: _ => .lt
  | _ :: _, [] => .gt
  | f :: fs, g :: gs => (order f g).then (orderList fs gs)

end

instance : Ord Formula := ⟨order⟩

/-- The formula that always holds. -/
abbrev verum : Formula := .constant true

/-- The formula that never holds. -/
abbrev falsum : Formula := .constant false

/-- Conjunction: of nothing it is true, of one formula that formula. -/
def allOf : List Formula → Formula
  | [] => verum
  | [f] => f
  | fs => .conj fs

/-- Disjunction: of nothing it is false, of one formula that formula. -/
def anyOf : List Formula → Formula
  | [] => falsum
  | [f] => f
  | fs => .disj fs

/-- Exactly one: of nothing it is false, of one formula that formula. -/
def oneOf : List Formula → Formula
  | [] => falsum
  | [f] => f
  | fs => .exactlyOne fs

/-- None of: of nothing it is true, of one formula its negation. -/
def nor : List Formula → Formula
  | [] => verum
  | [f] => .neg f
  | fs => .noneOf fs

/-- Both formulas imply each other. -/
def iff (left right : Formula) : Formula :=
  allOf [.implies left right, .implies right left]

/-- The connectives that take operands. -/
inductive Connective where
  | neg
  | conj
  | disj
  | exactlyOne
  | noneOf
  | implies
deriving DecidableEq, Repr

/-- How messages call a connective. -/
def Connective.label : Connective → String
  | neg => "not"
  | conj => "and"
  | disj => "or"
  | exactlyOne => "xor"
  | noneOf => "none"
  | implies => "if"

/-- How messages call the number of operands a connective takes. -/
def Connective.arity : Connective → String
  | neg => "exactly 1"
  | implies => "exactly 2"
  | _ => "at least 2"

/-- Apply a connective to as many operands as it takes. -/
def build? (connective : Connective) (operands : List Formula) : Option Formula :=
  match connective, operands with
  | .neg, [f] => some (.neg f)
  | .implies, [a, b] => some (.implies a b)
  | .conj, f :: g :: rest => some (.conj (f :: g :: rest))
  | .disj, f :: g :: rest => some (.disj (f :: g :: rest))
  | .exactlyOne, f :: g :: rest => some (.exactlyOne (f :: g :: rest))
  | .noneOf, f :: g :: rest => some (.noneOf (f :: g :: rest))
  | _, _ => none

/-- The direct operands of a formula. -/
def operands : Formula → List Formula
  | .constant _ | .atom _ => []
  | .neg f => [f]
  | .conj fs | .disj fs | .exactlyOne fs | .noneOf fs => fs
  | .implies a b => [a, b]

/-- Whether a formula is a constant. -/
def isConstant : Formula → Bool
  | .constant _ => true
  | _ => false

/-- Every occurrence of a term, from left to right. -/
def occurrences : Formula → List Term :=
  fold {
    constant := fun _ => []
    atom := fun term => [term]
    neg := id
    conj := List.flatten
    disj := List.flatten
    exactlyOne := List.flatten
    noneOf := List.flatten
    implies := (· ++ ·) }

/-- The distinct terms of a formula, ascending. -/
def terms (f : Formula) : List Term := ascending f.occurrences

/-- Whether a synthetic variable occurs in a formula. -/
def hasFreeTerms (f : Formula) : Bool := f.terms.any Term.isFree

end Formula

/-- A term or its negation. -/
structure Literal where
  term : Term
  positive : Bool
deriving DecidableEq, Inhabited

namespace Literal

instance : Ord Literal where
  compare left right :=
    (compare left.term right.term).then (compare left.positive right.positive)

/-- The opposite literal. -/
def negated (literal : Literal) : Literal :=
  { literal with positive := !literal.positive }

/-- A literal as a formula. -/
def toFormula (literal : Literal) : Formula :=
  if literal.positive then .atom literal.term else .neg (.atom literal.term)

end Literal

end IsaLogic
