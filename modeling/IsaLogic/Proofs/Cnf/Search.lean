import IsaLogic.Cnf.Search

/-!
# The search decides clause lists

A table of values stands for the valuations that agree with it (`Agrees`). One
clause, one pass and the repeated passes of propagation keep every agreeing
valuation that makes the clauses true, so propagation fails only where there is
none. When no pass sets anything more and no variable is left to try, every clause
has a true literal.

`Propagates` and `Searches` are the passes and the trials as they follow each other;
neither counts the open variables, and no place is checked. Where literals are in range
every trial leaves fewer variables open, so the search comes to an end
(`exists_searches`), and what it comes to is exact (`Searches.sound`,
`Searches.complete`).

The model that is reported has every variable, those that the search left open too
(`IsModel`). Their sign is of no matter: each clause has a literal that the table makes
true (`findModel_exact`).
-/

namespace IsaLogic.Cnf

/-- Some valuation makes all clauses true. -/
def Satisfiable (clauses : List (List Int)) : Prop :=
  ∃ valuation, clausesHold valuation clauses = true

/-- A valuation gives the variables the values that a table gives them. -/
def Agrees (values : Values) (valuation : Nat → Bool) : Prop :=
  ∀ number value, (values[number]?).join = some value → valuation number = value

section Values

variable {values : Values} {valuation : Nat → Bool}

theorem literalHolds_of_agrees (agrees : Agrees values valuation) {literal : Int} {value : Bool}
    (known : literalValue? values literal = some value) :
    literalHolds valuation literal = value := by
  unfold literalValue? at known
  split at known
  · cases known
  · rename_i number atNumber
    have here := agrees _ _ atNumber
    simp only [Option.some.injEq] at known
    rw [literalHolds, here, known]

theorem agrees_setIfInBounds (agrees : Agrees values valuation) (number : Nat) :
    Agrees (values.setIfInBounds number (some (valuation number))) valuation := by
  intro other value known
  rw [Array.getElem?_setIfInBounds] at known
  split at known
  · rename_i same
    subst same
    split at known <;> simp_all
  · exact agrees other value known

/-- Making a literal true that holds anyway. -/
theorem agrees_setTrue (agrees : Agrees values valuation) {literal : Int}
    (holds : literalHolds valuation literal = true) : Agrees (setTrue values literal) valuation := by
  have value : decide (0 < literal) = valuation literal.natAbs := by
    unfold literalHolds at holds
    split at holds <;> simp_all
  rw [setTrue, value]
  exact agrees_setIfInBounds agrees literal.natAbs

/-- Setting an open literal leaves fewer variables open, or changes nothing. -/
theorem setTrue_eq_or_openCount_lt {literal : Int} (isOpen : literalValue? values literal = none) :
    setTrue values literal = values ∨ openCount (setTrue values literal) < openCount values := by
  by_cases inRange : literal.natAbs < values.size
  · exact .inr (openCount_assume_lt inRange (isOpen_of_literalValue? isOpen) _)
  · exact .inl (Array.setIfInBounds_eq_of_size_le (Nat.le_of_not_lt inRange) ..)

end Values

section Propagation

variable {values next : Values} {clause : List Int} {clauses : List (List Int)}
  {valuation : Nat → Bool}

/-- A clause that holds under an agreeing valuation does not fail, and what it sets agrees. -/
theorem propagateClause_agrees (agrees : Agrees values valuation)
    (holds : clause.any (literalHolds valuation) = true) :
    ∃ next, propagateClause values clause = some next ∧ Agrees next valuation := by
  unfold propagateClause
  split
  · exact ⟨values, rfl, agrees⟩
  · rename_i noneTrue
    obtain ⟨literal, member, literalTrue⟩ := List.any_eq_true.mp holds
    -- the literal that holds is open: it is not known to be true, and not false either
    have isOpen : literal ∈ clause.filter fun literal => (literalValue? values literal).isNone := by
      refine List.mem_filter.mpr ⟨member, ?_⟩
      cases known : literalValue? values literal with
      | none => rfl
      | some value =>
        rw [literalHolds_of_agrees agrees known] at literalTrue
        subst literalTrue
        exact absurd (List.any_eq_true.mpr ⟨literal, member, by simp [known]⟩) noneTrue
    split
    · rename_i nothingOpen
      rw [nothingOpen] at isOpen
      cases isOpen
    · rename_i last oneOpen
      rw [oneOpen, List.mem_singleton] at isOpen
      subst isOpen
      exact ⟨_, rfl, agrees_setTrue agrees literalTrue⟩
    · exact ⟨values, rfl, agrees⟩

theorem propagatePass_agrees (agrees : Agrees values valuation)
    (holds : clausesHold valuation clauses = true) :
    ∃ next, propagatePass values clauses = some next ∧ Agrees next valuation := by
  induction clauses generalizing values with
  | nil => exact ⟨values, rfl, agrees⟩
  | cons clause rest ih =>
    rw [clausesHold, List.all_cons, Bool.and_eq_true] at holds
    obtain ⟨middle, step, agreesMiddle⟩ := propagateClause_agrees agrees holds.1
    rw [propagatePass, step]
    exact ih agreesMiddle holds.2

theorem propagateClause_eq_or_openCount_lt (step : propagateClause values clause = some next) :
    next = values ∨ openCount next < openCount values := by
  unfold propagateClause at step
  split at step
  · exact .inl (Option.some.inj step).symm
  · split at step
    · cases step
    · rename_i literal oneOpen
      have isOpen : literal ∈ clause.filter fun literal => (literalValue? values literal).isNone := by
        rw [oneOpen]
        exact List.mem_singleton.mpr rfl
      cases step
      exact setTrue_eq_or_openCount_lt (Option.isNone_iff_eq_none.mp (List.mem_filter.mp isOpen).2)
    · exact .inl (Option.some.inj step).symm

/-- A pass that leaves as many variables open as before changed nothing at any clause. -/
theorem propagatePass_stays (pass : propagatePass values clauses = some next)
    (stays : openCount values ≤ openCount next) :
    next = values ∧ ∀ clause ∈ clauses, propagateClause values clause = some values := by
  induction clauses with
  | nil =>
    cases pass
    exact ⟨rfl, fun _ member => nomatch member⟩
  | cons clause rest ih =>
    rw [propagatePass] at pass
    split at pass
    · cases pass
    · rename_i middle step
      have notMore := openCount_propagatePass_le pass
      rcases propagateClause_eq_or_openCount_lt step with same | fewer
      · subst same
        obtain ⟨same, each⟩ := ih pass
        refine ⟨same, fun clause member => ?_⟩
        rcases List.mem_cons.mp member with rfl | later
        · exact step
        · exact each clause later
      · omega

theorem size_propagateClause (step : propagateClause values clause = some next) :
    next.size = values.size := by
  unfold propagateClause at step
  split at step
  · rw [Option.some.inj step]
  · split at step
    · cases step
    · cases step
      exact Array.size_setIfInBounds
    · rw [Option.some.inj step]

theorem size_propagatePass (pass : propagatePass values clauses = some next) :
    next.size = values.size := by
  induction clauses generalizing values with
  | nil => rw [Option.some.inj pass]
  | cons clause rest ih =>
    rw [propagatePass] at pass
    split at pass
    · cases pass
    · rename_i middle step
      rw [ih pass, size_propagateClause step]

/-- One pass over the clauses after another, until one fails or changes nothing. What a pass sets
was open before, so a pass that changes nothing has set nothing. -/
inductive Propagates (clauses : List (List Int)) : Values → Option Values → Prop where
  | fails {values : Values} (pass : propagatePass values clauses = none) :
    Propagates clauses values none
  | settles {values : Values} (pass : propagatePass values clauses = some values) :
    Propagates clauses values (some values)
  | again {values next : Values} {outcome : Option Values}
    (pass : propagatePass values clauses = some next) (changed : next ≠ values)
    (rest : Propagates clauses next outcome) : Propagates clauses values outcome

theorem propagates_of_propagate {outcome : Option Values}
    (propagated : propagate clauses values = outcome) : Propagates clauses values outcome := by
  subst propagated
  fun_induction propagate clauses values with
  | case1 values failed => exact .fails failed
  | case2 values next pass fewer ih =>
    refine .again pass ?_ ih
    rintro rfl
    exact Nat.lt_irrefl _ fewer
  | case3 values next pass stays =>
    obtain ⟨rfl, _⟩ := propagatePass_stays pass (Nat.le_of_not_lt stays)
    exact .settles pass

/-- Propagation keeps the agreeing valuations under which the clauses hold. -/
theorem Propagates.agrees {outcome : Option Values} (propagates : Propagates clauses values outcome)
    (agrees : Agrees values valuation) (holds : clausesHold valuation clauses = true) :
    ∃ next, outcome = some next ∧ Agrees next valuation := by
  induction propagates with
  | fails failed =>
    obtain ⟨next, pass, _⟩ := propagatePass_agrees agrees holds
    rw [failed] at pass
    cases pass
  | settles => exact ⟨_, rfl, agrees⟩
  | again pass _ _ ih =>
    obtain ⟨next, same, agreesNext⟩ := propagatePass_agrees agrees holds
    cases pass.symm.trans same
    exact ih agreesNext

/-- After propagation no clause fails and none sets a variable. -/
theorem Propagates.settled (propagates : Propagates clauses values (some next)) :
    next.size = values.size ∧ ∀ clause ∈ clauses, propagateClause next clause = some next := by
  generalize isNext : some next = outcome at propagates
  induction propagates with
  | fails => cases isNext
  | settles pass =>
    cases isNext
    exact ⟨rfl, (propagatePass_stays pass (Nat.le_refl _)).2⟩
  | again pass _ _ ih =>
    rw [← size_propagatePass pass]
    exact ih isNext

end Propagation

section Search

variable {values model : Values} {clauses : List (List Int)}

/-- Every literal has a place in a table of the given size. -/
def InRange (size : Nat) (clauses : List (List Int)) : Prop :=
  ∀ clause ∈ clauses, ∀ literal ∈ clause, literal.natAbs < size

/-- The table has a place for the variable to try. -/
theorem branchVariable?_lt {number : Nat} (inRange : InRange values.size clauses)
    (found : branchVariable? clauses values = some number) : number < values.size := by
  obtain ⟨_, clause, member, literal, inside, rfl⟩ := isOpen_of_branchVariable? found
  exact inRange clause member literal inside

/-- A trial keeps the places of the table. -/
theorem size_assume {settled : Values} (propagates : Propagates clauses values (some settled))
    (tried : Nat) (value : Bool) : (assume settled tried value).size = values.size := by
  rw [assume, Array.size_setIfInBounds, propagates.settled.1]

/-- If no clause fails and no variable is left to try, every clause has a true literal. -/
theorem exists_true_of_branchVariable?_eq_none
    (settled : ∀ clause ∈ clauses, propagateClause values clause = some values)
    (nothingLeft : branchVariable? clauses values = none) :
    ∀ clause ∈ clauses, ∃ literal ∈ clause, literalValue? values literal = some true := by
  intro clause member
  have here := List.findSome?_eq_none_iff.mp nothingLeft clause member
  split at here
  · rename_i holds
    obtain ⟨literal, inClause, isTrue⟩ := List.any_eq_true.mp holds
    exact ⟨literal, inClause, eq_of_beq isTrue⟩
  · rename_i noneTrue
    have noneOpen : (clause.filter fun l => (literalValue? values l).isNone) = [] := by
      rw [Option.map_eq_none_iff, List.find?_eq_none] at here
      exact List.filter_eq_nil_iff.mpr here
    have fails := settled clause member
    rw [propagateClause, if_neg noneTrue, noneOpen] at fails
    cases fails

/-- The search as its trials go: of the variable that is tried after propagation first true, and
false once that is refuted. There are at most as many trials within one another as the depth
says. -/
inductive Searches (clauses : List (List Int)) : Values → Option Values → Nat → Prop where
  | refuted {values : Values} {depth : Nat} (propagates : Propagates clauses values none) :
    Searches clauses values none depth
  | settled {values settled : Values} {depth : Nat}
    (propagates : Propagates clauses values (some settled))
    (nothingLeft : branchVariable? clauses settled = none) :
    Searches clauses values (some settled) depth
  | first {values settled model : Values} {depth tried : Nat}
    (propagates : Propagates clauses values (some settled))
    (branch : branchVariable? clauses settled = some tried)
    (found : Searches clauses (assume settled tried true) (some model) depth) :
    Searches clauses values (some model) (depth + 1)
  | second {values settled : Values} {depth tried : Nat} {outcome : Option Values}
    (propagates : Propagates clauses values (some settled))
    (branch : branchVariable? clauses settled = some tried)
    (notFound : Searches clauses (assume settled tried true) none depth)
    (other : Searches clauses (assume settled tried false) outcome depth) :
    Searches clauses values outcome (depth + 1)

/-- Room for more trials is no harm. -/
theorem Searches.mono {outcome : Option Values} {depth more : Nat}
    (searches : Searches clauses values outcome depth) (deeper : depth ≤ more) :
    Searches clauses values outcome more := by
  induction searches generalizing more with
  | refuted propagates => exact .refuted propagates
  | settled propagates nothingLeft => exact .settled propagates nothingLeft
  | first propagates branch _ ih =>
    obtain ⟨less, rfl⟩ := Nat.exists_eq_add_one_of_ne_zero (Nat.ne_zero_of_lt deeper)
    exact .first propagates branch (ih (Nat.le_of_succ_le_succ deeper))
  | second propagates branch _ _ ihTrue ihFalse =>
    obtain ⟨less, rfl⟩ := Nat.exists_eq_add_one_of_ne_zero (Nat.ne_zero_of_lt deeper)
    exact .second propagates branch (ihTrue (Nat.le_of_succ_le_succ deeper))
      (ihFalse (Nat.le_of_succ_le_succ deeper))

/-- The search keeps the places of the table. -/
theorem Searches.size {depth : Nat} (searches : Searches clauses values (some model) depth) :
    model.size = values.size := by
  generalize isModel : some model = outcome at searches
  induction searches with
  | refuted => cases isModel
  | settled propagates =>
    cases isModel
    exact propagates.settled.1
  | first propagates _ _ ih => exact (ih isModel).trans (size_assume propagates _ _)
  | second propagates _ _ _ _ ihFalse => exact (ihFalse isModel).trans (size_assume propagates _ _)

/-- What the search finds makes a literal of every clause true. -/
theorem Searches.sound {depth : Nat} (searches : Searches clauses values (some model) depth) :
    ∀ clause ∈ clauses, ∃ literal ∈ clause, literalValue? model literal = some true := by
  generalize isModel : some model = outcome at searches
  induction searches with
  | refuted => cases isModel
  | settled propagates nothingLeft =>
    cases isModel
    exact exists_true_of_branchVariable?_eq_none propagates.settled.2 nothingLeft
  | first _ _ _ ih => exact ih isModel
  | second _ _ _ _ _ ihFalse => exact ihFalse isModel

/-- The search finds something where an agreeing valuation makes the clauses true. -/
theorem Searches.complete {valuation : Nat → Bool} {outcome : Option Values} {depth : Nat}
    (searches : Searches clauses values outcome depth) (agrees : Agrees values valuation)
    (holds : clausesHold valuation clauses = true) : ∃ model, outcome = some model := by
  induction searches with
  | refuted propagates =>
    obtain ⟨next, isNext, _⟩ := propagates.agrees agrees holds
    cases isNext
  | settled => exact ⟨_, rfl⟩
  | first => exact ⟨_, rfl⟩
  | @second _ _ _ tried _ propagates _ _ _ ihTrue ihFalse =>
    obtain ⟨next, isNext, agreesSettled⟩ := propagates.agrees agrees holds
    cases isNext
    have agreesTried := agrees_setIfInBounds agreesSettled tried
    cases triedValue : valuation tried with
    | true =>
      rw [triedValue] at agreesTried
      obtain ⟨model, isModel⟩ := ihTrue agreesTried
      cases isModel
    | false =>
      rw [triedValue] at agreesTried
      exact ihFalse agreesTried

/-- Every trial gives an open variable a value, so there are at most as many within one another as
variables are open. -/
theorem exists_searches (inRange : InRange values.size clauses) :
    ∃ outcome, search clauses values = .ok outcome ∧
      Searches clauses values outcome (openCount values) := by
  fun_induction search clauses values with
  | case1 values failed => exact ⟨none, rfl, .refuted (propagates_of_propagate failed)⟩
  | case2 values settled propagated nothingLeft =>
    exact ⟨settled, rfl, .settled (propagates_of_propagate propagated) nothingLeft⟩
  | case3 values settled propagated tried branch _ fewer notFound ihTrue ihFalse =>
    have propagates := propagates_of_propagate propagated
    obtain ⟨refuted, searched, first⟩ := ihTrue (size_assume propagates tried true ▸ inRange)
    cases notFound.symm.trans searched
    obtain ⟨outcome, searched, second⟩ := ihFalse (size_assume propagates tried false ▸ inRange)
    have trials : Searches clauses values outcome _ := .second propagates branch
      (first.mono (Nat.le_max_left ..)) (second.mono (Nat.le_max_right ..))
    exact ⟨outcome, searched, trials.mono (Nat.max_lt.mpr ⟨fewer true, fewer false⟩)⟩
  | case4 values settled propagated tried branch _ fewer found ihTrue =>
    have propagates := propagates_of_propagate propagated
    obtain ⟨outcome, searched, first⟩ := ihTrue (size_assume propagates tried true ▸ inRange)
    cases outcome with
    | none => exact absurd searched found
    | some model =>
      have trials := Searches.first propagates branch first
      exact ⟨some model, searched, trials.mono (fewer true)⟩
  | case5 values settled propagated tried branch missing =>
    have sameSize := (propagates_of_propagate propagated).settled.1
    exact absurd (branchVariable?_lt (sameSize ▸ inRange) branch) missing

end Search

section Model

variable {numVars : Nat} {clauses : List (List Int)} {model : List Int}

/-- The variables from one on in their order, each with a sign, among them a literal of every
clause. -/
structure IsModel (numVars : Nat) (clauses : List (List Int)) (model : List Int) : Prop where
  numbers : model.map Int.natAbs = List.range' 1 numVars
  satisfies : ∀ clause ∈ clauses, ∃ literal ∈ clause, literal ∈ model

/-- A variable with the sign that a table gives it; an open one is negated. -/
def signed (values : Values) (number : Nat) : Int :=
  if (values[number]?).join == some true then (number : Int) else -(number : Int)

theorem natAbs_signed (values : Values) (number : Nat) : (signed values number).natAbs = number := by
  unfold signed
  split
  · exact Int.natAbs_natCast number
  · rw [Int.natAbs_neg, Int.natAbs_natCast]

/-- A literal that a table makes true has the sign of its variable there. -/
theorem signed_natAbs {values : Values} {literal : Int}
    (isTrue : literalValue? values literal = some true) : signed values literal.natAbs = literal := by
  unfold literalValue? at isTrue
  split at isTrue
  · cases isTrue
  · rename_i value known
    rw [signed, known]
    by_cases positive : 0 < literal
    · rw [if_pos positive] at isTrue
      rw [if_pos (by simpa using isTrue)]
      omega
    · rw [if_neg positive] at isTrue
      rw [if_neg (by simpa using isTrue)]
      omega

theorem openCount_replicate (size : Nat) : openCount (Array.replicate size none) = size := by
  simp [openCount, List.countP_replicate]

theorem agrees_replicate (size : Nat) (valuation : Nat → Bool) :
    Agrees (Array.replicate size none) valuation := by
  intro number value known
  rw [Array.getElem?_replicate] at known
  split at known <;> cases known

/-- A model is what the search finds, read off its table. The search starts with all variables
open. -/
theorem exists_searches_of_inRange (inRange : InRange (numVars + 1) clauses) :
    ∃ outcome, search clauses (Array.replicate (numVars + 1) none) = .ok outcome ∧
      Searches clauses (Array.replicate (numVars + 1) none) outcome (numVars + 1) ∧
      findModel numVars clauses =
        outcome.map fun values => (List.range' 1 numVars).map (signed values) := by
  have places : InRange (Array.replicate (numVars + 1) (none : Option Bool)).size clauses := by
    rwa [Array.size_replicate]
  obtain ⟨outcome, searched, searches⟩ := exists_searches places
  rw [openCount_replicate] at searches
  refine ⟨outcome, searched, searches, ?_⟩
  rw [findModel, searched]
  cases outcome with
  | none => rfl
  | some values =>
    simp only [signed, List.range'_eq_map_range, List.map_map, Function.comp_def, Nat.add_comm 1,
      Option.map_some]

/-- No model is found just if there is none. -/
theorem findModel_eq_none_iff (inRange : InRange (numVars + 1) clauses) :
    findModel numVars clauses = none ↔ ¬ Satisfiable clauses := by
  obtain ⟨outcome, _, searches, isFound⟩ := exists_searches_of_inRange inRange
  rw [isFound, Option.map_eq_none_iff]
  constructor
  · rintro rfl ⟨valuation, holds⟩
    obtain ⟨model, isModel⟩ := searches.complete (agrees_replicate _ valuation) holds
    cases isModel
  · intro unsatisfiable
    cases outcome with
    | none => rfl
    | some model =>
      refine absurd ⟨fun number => (model[number]?).join == some true, ?_⟩ unsatisfiable
      refine List.all_eq_true.mpr fun clause member => ?_
      obtain ⟨literal, inClause, isTrue⟩ := searches.sound clause member
      refine List.any_eq_true.mpr ⟨literal, inClause, literalHolds_of_agrees ?_ isTrue⟩
      intro number value known
      cases value <;> simp [known]

/-- The search answers whether some valuation makes all clauses true. -/
theorem isSatisfiable_solve_iff {cnf : Cnf} (inRange : InRange (cnf.numVars + 1) cnf.clauses) :
    cnf.solve.isSatisfiable = true ↔ ∃ valuation, clausesHold valuation cnf.clauses = true := by
  have none_iff := findModel_eq_none_iff inRange
  unfold solve
  cases found : findModel cnf.numVars cnf.clauses with
  | none => exact iff_of_false Bool.false_ne_true (none_iff.mp found)
  | some model =>
    rw [found] at none_iff
    exact iff_of_true rfl (Classical.not_not.mp (mt none_iff.mpr nofun))

/-- What is found is a model, if the clauses are over variables from one up to the number. -/
theorem isModel_of_findModel
    (inRange : ∀ clause ∈ clauses, ∀ literal ∈ clause, literal ≠ 0 ∧ literal.natAbs ≤ numVars)
    (found : findModel numVars clauses = some model) : IsModel numVars clauses model := by
  have places : InRange (numVars + 1) clauses := fun clause member literal inClause =>
    Nat.lt_succ_of_le (inRange clause member literal inClause).2
  obtain ⟨outcome, _, searches, isFound⟩ := exists_searches_of_inRange places
  obtain ⟨values, rfl, rfl⟩ := Option.map_eq_some_iff.mp (isFound.symm.trans found)
  constructor
  · rw [List.map_map]
    exact (List.map_congr_left fun number _ => natAbs_signed values number).trans (List.map_id _)
  · intro clause member
    obtain ⟨literal, inClause, isTrue⟩ := searches.sound clause member
    obtain ⟨nonzero, atMost⟩ := inRange clause member literal inClause
    refine ⟨literal, inClause, List.mem_map.mpr ⟨literal.natAbs, ?_, signed_natAbs isTrue⟩⟩
    rw [List.mem_range'_1]
    omega

/-- The search for a model ends and is exact. If the clauses are over variables from one up to a
number, there are at most that many trials and one within one another, and what they come to is
what is found; none is found just if no valuation makes all clauses true; and what is found gives
every variable one sign, in order, and has a literal of every clause. -/
theorem findModel_exact
    (inRange : ∀ clause ∈ clauses, ∀ literal ∈ clause, literal ≠ 0 ∧ literal.natAbs ≤ numVars) :
    (∃ outcome, search clauses (Array.replicate (numVars + 1) none) = .ok outcome ∧
      Searches clauses (Array.replicate (numVars + 1) none) outcome (numVars + 1) ∧
      findModel numVars clauses =
        outcome.map fun values => (List.range' 1 numVars).map (signed values)) ∧
      (findModel numVars clauses = none ↔ ¬ Satisfiable clauses) ∧
      ∀ model, findModel numVars clauses = some model → IsModel numVars clauses model := by
  have places : InRange (numVars + 1) clauses := fun clause member literal inClause =>
    Nat.lt_succ_of_le (inRange clause member literal inClause).2
  exact ⟨exists_searches_of_inRange places, findModel_eq_none_iff places,
    fun model => isModel_of_findModel inRange⟩

/-- Clauses that need a trial, with a repeated literal, opposite literals and a variable in none. -/
theorem findModel_exact_branching :
    let clauses : List (List Int) := [[1, 2], [-1, 3], [-3, -3], [4, -4], [-2, 4, 1]]
    let refuted : List (List Int) := [[1, 2], [1, -2], [-1, 2], [-1, -2]]
    (∀ clause ∈ clauses, ∀ literal ∈ clause, literal ≠ 0 ∧ literal.natAbs ≤ 5) ∧
      (∃ model, findModel 5 clauses = some model ∧ IsModel 5 clauses model) ∧
      (∀ clause ∈ refuted, ∀ literal ∈ clause, literal ≠ 0 ∧ literal.natAbs ≤ 2) ∧
      Searches refuted (Array.replicate 3 none) none 3 ∧ findModel 2 refuted = none := by
  intro clauses refuted
  have inRange : ∀ clause ∈ clauses, ∀ literal ∈ clause, literal ≠ 0 ∧ literal.natAbs ≤ 5 := by
    decide
  have refutedInRange : ∀ clause ∈ refuted, ∀ literal ∈ clause,
      literal ≠ 0 ∧ literal.natAbs ≤ 2 := by
    decide
  have satisfiable : Satisfiable clauses := ⟨fun number => number == 2 || number == 4, by decide⟩
  have unsatisfiable : ¬ Satisfiable refuted := by
    rintro ⟨valuation, holds⟩
    cases first : valuation 1 <;> cases second : valuation 2 <;>
      simp [refuted, clausesHold, literalHolds, first, second] at holds
  obtain ⟨_, none_iff, isModel⟩ := findModel_exact inRange
  obtain ⟨⟨outcome, _, searches, isFound⟩, refuted_iff, _⟩ := findModel_exact refutedInRange
  have notFound := refuted_iff.mpr unsatisfiable
  have isNone := Option.map_eq_none_iff.mp (isFound.symm.trans notFound)
  refine ⟨inRange, ?_, refutedInRange, isNone ▸ searches, notFound⟩
  cases found : findModel 5 clauses with
  | none => exact absurd satisfiable (none_iff.mp found)
  | some model => exact ⟨model, rfl, isModel model found⟩

end Model

end IsaLogic.Cnf
