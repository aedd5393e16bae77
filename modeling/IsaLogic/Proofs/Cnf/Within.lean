import IsaLogic.Proofs.Cnf.Search

/-!
# The search stays within its table

The tables of the search are total: a place that a table lacks reads as open, and writing there
changes nothing. `solveWithin` is the same search over tables that refuse such a place and report
it. Where every literal has a place, nothing is refused (`solveWithin_eq`).

Only writing and the reading of the model are checked; what a clause says of its variables is
asked of the table as before.
-/

namespace IsaLogic.Cnf

/-- Give a variable a value at its place, which the table has to have. -/
def writeWithin (values : Values) (number : Nat) (value : Bool) : Except Nat Values :=
  if number < values.size then .ok (assume values number value) else .error number

/-- Set the one open literal of a clause, at a place that the table has. -/
def propagateClauseWithin (values : Values) (clause : List Int) : Except Nat (Option Values) :=
  if clause.any fun literal => literalValue? values literal == some true then .ok (some values)
  else
    match clause.filter fun literal => (literalValue? values literal).isNone with
    | [] => .ok none
    | [literal] => (writeWithin values literal.natAbs (decide (0 < literal))).map some
    | _ => .ok (some values)

/-- One pass over the clauses at places that the table has. -/
def propagatePassWithin (values : Values) : List (List Int) → Except Nat (Option Values)
  | [] => .ok (some values)
  | clause :: rest =>
    match propagateClauseWithin values clause with
    | .error place => .error place
    | .ok none => .ok none
    | .ok (some values) => propagatePassWithin values rest

/-- Passes over the clauses, at places that the table has, until none sets a variable. -/
def propagateWithin (clauses : List (List Int)) (values : Values) : Except Nat (Option Values) :=
  match propagatePassWithin values clauses with
  | .error place => .error place
  | .ok none => .ok none
  | .ok (some next) =>
    if openCount next < openCount values then propagateWithin clauses next else .ok (some next)
termination_by openCount values

/-- Search for values of the open variables, at places that the table has. A variable to try that
has a place is open, so that each trial leaves fewer variables open. -/
def searchWithin (clauses : List (List Int)) (values : Values) : Except Nat (Option Values) :=
  match propagateWithin clauses values with
  | .error place => .error place
  | .ok none => .ok none
  | .ok (some settled) =>
    match branchVariable? clauses settled with
    | none => .ok (some settled)
    | some tried =>
      if _ : tried < settled.size ∧ openCount (assume settled tried true) < openCount values ∧
          openCount (assume settled tried false) < openCount values then
        match searchWithin clauses (assume settled tried true) with
        | .ok none => searchWithin clauses (assume settled tried false)
        | answer => answer
      else .error tried
termination_by openCount values

/-- Decide satisfiability by a search at places that the table has. -/
def solveWithin (cnf : Cnf) : Except Nat SatResult :=
  match searchWithin cnf.clauses (Array.replicate (cnf.numVars + 1) none) with
  | .error place => .error place
  | .ok none => .ok .unsatisfiable
  | .ok (some values) =>
    if values.size ≤ cnf.numVars then .error cnf.numVars
    else .ok (.satisfiable ((List.range' 1 cnf.numVars).map (signed values)))

variable {values : Values} {clause : List Int} {clauses : List (List Int)}

theorem propagateClauseWithin_eq (inRange : ∀ literal ∈ clause, literal.natAbs < values.size) :
    propagateClauseWithin values clause = .ok (propagateClause values clause) := by
  unfold propagateClauseWithin propagateClause
  by_cases holds : (clause.any fun literal => literalValue? values literal == some true) = true
  · rw [if_pos holds, if_pos holds]
  · rw [if_neg holds, if_neg holds]
    cases isOpen : clause.filter fun literal => (literalValue? values literal).isNone with
    | nil => rfl
    | cons literal others =>
      cases others with
      | nil =>
        have member : literal ∈ clause :=
          (List.mem_filter.mp (isOpen ▸ List.mem_cons_self ..)).1
        dsimp only
        rw [writeWithin, if_pos (inRange literal member)]
        rfl
      | cons other others => rfl

theorem propagatePassWithin_eq (inRange : InRange values.size clauses) :
    propagatePassWithin values clauses = .ok (propagatePass values clauses) := by
  induction clauses generalizing values with
  | nil => rfl
  | cons clause rest ih =>
    obtain ⟨first, later⟩ := List.forall_mem_cons.mp inRange
    rw [propagatePassWithin, propagatePass, propagateClauseWithin_eq first]
    cases step : propagateClause values clause with
    | none => rfl
    | some next =>
      rw [← size_propagateClause step] at later
      exact ih later

theorem propagateWithin_eq (inRange : InRange values.size clauses) :
    propagateWithin clauses values = .ok (propagate clauses values) := by
  fun_induction propagate clauses values with
  | case1 values failed => rw [propagateWithin, propagatePassWithin_eq inRange, failed]
  | case2 values next pass fewer ih =>
    rw [propagateWithin, propagatePassWithin_eq inRange, pass]
    dsimp only
    rw [if_pos fewer, ih (size_propagatePass pass ▸ inRange)]
  | case3 values next pass stays =>
    rw [propagateWithin, propagatePassWithin_eq inRange, pass]
    dsimp only
    rw [if_neg stays]

/-- A trial is made at a place that the table has. -/
theorem searchWithin_of_branch {settled : Values} {tried : Nat}
    (inRange : InRange values.size clauses) (propagated : propagate clauses values = some settled)
    (branch : branchVariable? clauses settled = some tried) :
    searchWithin clauses values =
      match searchWithin clauses (assume settled tried true) with
      | .ok none => searchWithin clauses (assume settled tried false)
      | answer => answer := by
  have sameSize := (propagates_of_propagate propagated).settled.1
  have inTable := branchVariable?_lt (sameSize ▸ inRange) branch
  have isOpen := (isOpen_of_branchVariable? branch).1
  have fewer : ∀ value, openCount (assume settled tried value) < openCount values := fun value =>
    Nat.lt_of_lt_of_le (openCount_assume_lt inTable isOpen value)
      (openCount_propagate_le propagated)
  rw [searchWithin, propagateWithin_eq inRange, propagated]
  dsimp only
  rw [branch]
  dsimp only
  rw [dif_pos ⟨inTable, fewer true, fewer false⟩]

theorem searchWithin_eq (inRange : InRange values.size clauses) :
    searchWithin clauses values = search clauses values := by
  fun_induction search clauses values with
  | case1 values failed => rw [searchWithin, propagateWithin_eq inRange, failed]
  | case2 values settled propagated nothingLeft =>
    rw [searchWithin, propagateWithin_eq inRange, propagated]
    dsimp only
    rw [nothingLeft]
  | case3 values settled propagated tried branch _ _ notFound ihTrue ihFalse =>
    have propagates := propagates_of_propagate propagated
    rw [searchWithin_of_branch inRange propagated branch,
      ihTrue (size_assume propagates tried true ▸ inRange), notFound]
    exact ihFalse (size_assume propagates tried false ▸ inRange)
  | case4 values settled propagated tried branch _ _ found ihTrue =>
    have propagates := propagates_of_propagate propagated
    rw [searchWithin_of_branch inRange propagated branch,
      ihTrue (size_assume propagates tried true ▸ inRange)]
    split
    · rename_i notFound
      exact absurd notFound found
    · rfl
  | case5 values settled propagated tried branch missing =>
    have sameSize := (propagates_of_propagate propagated).settled.1
    exact absurd (branchVariable?_lt (sameSize ▸ inRange) branch) missing

/-- Where each literal has a place in the table, the search refuses no place. -/
theorem solveWithin_eq {cnf : Cnf} (inRange : InRange (cnf.numVars + 1) cnf.clauses) :
    cnf.solveWithin = .ok cnf.solve := by
  have within : searchWithin cnf.clauses (Array.replicate (cnf.numVars + 1) none) =
      search cnf.clauses (Array.replicate (cnf.numVars + 1) none) :=
    searchWithin_eq (by rwa [Array.size_replicate])
  obtain ⟨outcome, searched, searches, found⟩ := exists_searches_of_inRange inRange
  rw [solveWithin, within, searched, solve, found]
  cases outcome with
  | none => rfl
  | some values =>
    have enough : ¬ values.size ≤ cnf.numVars := by
      rw [searches.size, Array.size_replicate]
      exact Nat.not_succ_le_self cnf.numVars
    dsimp only
    rw [if_neg enough]
    rfl

end IsaLogic.Cnf
