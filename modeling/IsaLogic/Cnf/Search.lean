import IsaLogic.Cnf.Basic

/-!
# Searching for a model

Backtracking search with unit propagation. A table gives each variable a value
or leaves it open. A pass over the clauses sets the last open literal of every
clause that has just one; passes repeat until nothing more is set. Then the
first open variable of the first undecided clause is tried true, and then false.
Every pass that sets something, and every trial, leaves fewer variables open.
-/

namespace IsaLogic.Cnf

/-- The values of variables by their number; the variable zero is never used. -/
abbrev Values := Array (Option Bool)

/-- The value of a literal, if its variable has one. -/
def literalValue? (values : Values) (literal : Int) : Option Bool :=
  match (values[literal.natAbs]?).join with
  | none => none
  | some value => some (if 0 < literal then value else !value)

/-- Make a literal true. -/
def setTrue (values : Values) (literal : Int) : Values :=
  values.setIfInBounds literal.natAbs (some (decide (0 < literal)))

/-- How many variables are open. -/
def openCount (values : Values) : Nat := values.toList.countP Option.isNone

/-- Set the one open literal of a clause, if no literal holds and just one is
open. `none` if the clause fails. -/
def propagateClause (values : Values) (clause : List Int) : Option Values :=
  if clause.any fun literal => literalValue? values literal == some true then some values
  else
    match clause.filter fun literal => (literalValue? values literal).isNone with
    | [] => none
    | [literal] => some (setTrue values literal)
    | _ => some values

/-- One pass over the clauses. -/
def propagatePass (values : Values) : List (List Int) → Option Values
  | [] => some values
  | clause :: rest =>
    match propagateClause values clause with
    | none => none
    | some values => propagatePass values rest

/-- Passes over the clauses until none sets a variable. -/
def propagate (clauses : List (List Int)) (values : Values) : Option Values :=
  match propagatePass values clauses with
  | none => none
  | some next =>
    if openCount next < openCount values then propagate clauses next else some next
termination_by openCount values

/-- The variable to try: the first open one of the first clause that does not
hold yet. -/
def branchVariable? (clauses : List (List Int)) (values : Values) : Option Nat :=
  clauses.findSome? fun clause =>
    if clause.any fun literal => literalValue? values literal == some true then none
    else (clause.find? fun literal => (literalValue? values literal).isNone).map Int.natAbs

theorem openCount_setTrue_le (values : Values) (literal : Int) :
    openCount (setTrue values literal) ≤ openCount values := by
  have general : ∀ (list : List (Option Bool)) (i : Nat) (b : Bool),
      (list.set i (some b)).countP Option.isNone ≤ list.countP Option.isNone := by
    intro list
    induction list with
    | nil => simp
    | cons v list ih =>
      intro i b
      cases i with
      | zero => simp [List.countP_cons]
      | succ i =>
        have := ih i b
        simp only [List.set_cons_succ, List.countP_cons]
        omega
  simpa [openCount, setTrue] using general values.toList literal.natAbs (decide (0 < literal))

theorem openCount_propagateClause_le {values next : Values} {clause : List Int}
    (step : propagateClause values clause = some next) : openCount next ≤ openCount values := by
  unfold propagateClause at step
  split at step
  · simp_all
  · split at step
    · simp at step
    · simp only [Option.some.injEq] at step
      exact step ▸ openCount_setTrue_le values _
    · simp_all

theorem openCount_propagatePass_le {clauses : List (List Int)} {values next : Values}
    (pass : propagatePass values clauses = some next) : openCount next ≤ openCount values := by
  induction clauses generalizing values with
  | nil => simp_all [propagatePass]
  | cons clause rest ih =>
    simp only [propagatePass] at pass
    split at pass
    · simp at pass
    · rename_i middle step
      exact Nat.le_trans (ih pass) (openCount_propagateClause_le step)

theorem openCount_propagate_le {clauses : List (List Int)} {values next : Values}
    (done : propagate clauses values = some next) : openCount next ≤ openCount values := by
  fun_induction propagate clauses values with
  | case1 => simp at done
  | case2 values middle pass fewer ih => exact Nat.le_trans (ih done) (Nat.le_of_lt fewer)
  | case3 values middle pass stays =>
    simp only [Option.some.injEq] at done
    exact done ▸ openCount_propagatePass_le pass

/-- Give a variable a value. -/
def assume (values : Values) (number : Nat) (value : Bool) : Values :=
  values.setIfInBounds number (some value)

theorem countP_set_lt {list : List (Option Bool)} {place : Nat} (value : Bool)
    (isOpen : list[place]? = some none) :
    (list.set place (some value)).countP Option.isNone < list.countP Option.isNone := by
  induction list generalizing place with
  | nil => simp at isOpen
  | cons first rest ih =>
    cases place with
    | zero =>
      rw [List.getElem?_cons_zero, Option.some.injEq] at isOpen
      subst isOpen
      simp
    | succ place =>
      have fewer := ih (by simpa using isOpen)
      simp only [List.set_cons_succ, List.countP_cons]
      omega

/-- Giving an open variable a value leaves fewer open. -/
theorem openCount_assume_lt {values : Values} {number : Nat} (inTable : number < values.size)
    (isOpen : (values[number]?).join = none) (value : Bool) :
    openCount (assume values number value) < openCount values := by
  have here : values.toList[number]? = some none := by
    rw [Array.getElem?_eq_getElem inTable] at isOpen
    rw [Array.getElem?_toList, Array.getElem?_eq_getElem inTable]
    exact congrArg some isOpen
  simpa [openCount, assume] using countP_set_lt value here

/-- A literal without a value is one of an open variable. -/
theorem isOpen_of_literalValue? {values : Values} {literal : Int}
    (unknown : literalValue? values literal = none) : (values[literal.natAbs]?).join = none := by
  unfold literalValue? at unknown
  split at unknown
  · assumption
  · cases unknown

/-- The variable to try is open, and it is one of a clause. -/
theorem isOpen_of_branchVariable? {clauses : List (List Int)} {values : Values} {number : Nat}
    (found : branchVariable? clauses values = some number) :
    (values[number]?).join = none ∧ ∃ clause ∈ clauses, ∃ literal ∈ clause,
      literal.natAbs = number := by
  obtain ⟨clause, member, tried⟩ := List.exists_of_findSome?_eq_some found
  split at tried
  · cases tried
  · obtain ⟨literal, first, rfl⟩ := Option.map_eq_some_iff.mp tried
    have unknown := List.find?_some first
    exact ⟨isOpen_of_literalValue? (Option.isNone_iff_eq_none.mp unknown),
      clause, member, literal, List.mem_of_find?_eq_some first, rfl⟩

/-- Search for values of the open variables under which all clauses hold. The search ends without
an answer at a variable to try for which the table has no place. -/
def search (clauses : List (List Int)) (values : Values) : Except Nat (Option Values) :=
  match propagated : propagate clauses values with
  | none => .ok none
  | some settled =>
    match branch : branchVariable? clauses settled with
    | none => .ok (some settled)
    | some tried =>
      if inTable : tried < settled.size then
        have := fun value => Nat.lt_of_lt_of_le
          (openCount_assume_lt inTable (isOpen_of_branchVariable? branch).1 value)
          (openCount_propagate_le propagated)
        match search clauses (assume settled tried true) with
        | .ok none => search clauses (assume settled tried false)
        | answer => answer
      else .error tried
termination_by openCount values
decreasing_by all_goals exact this _

/-- A model of some clauses over variables up to a number, one signed number for
each variable in ascending order. There is none if the search finds none, or if it
ends without an answer. -/
def findModel (numVars : Nat) (clauses : List (List Int)) : Option (List Int) :=
  match search clauses (Array.replicate (numVars + 1) none) with
  | .ok (some values) =>
    some <| (List.range numVars).map fun i =>
      let number : Nat := i + 1
      if (values[number]?).join == some true then (number : Int) else -(number : Int)
  | _ => none

/-- Decide satisfiability by search. -/
def solve (cnf : Cnf) : SatResult :=
  match findModel cnf.numVars cnf.clauses with
  | some model => .satisfiable model
  | none => .unsatisfiable

end IsaLogic.Cnf
