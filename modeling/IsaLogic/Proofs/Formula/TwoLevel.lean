import IsaLogic.Formula.Distribute
import IsaLogic.Proofs.Formula.NormalForm

/-!
# Two-level forms

Groups of literals have a meaning of their own (`groupsHold`), which is that of the
formula built from them and that of the formula they are read off. Multiplying out
is followed with one predicate, `Spells`: the groups mean the formula and mention
only its terms. Each operation on groups has one lemma about it.

What every step of multiplying out keeps, multiplying out keeps (`Distributive`,
`metered_multiplyOut`). The induction is made once for all relations between formulas
and groups, and for all budgets at once: a formula in negation normal form never fails
without a budget, and a budget makes no difference but to stop it (`Metered`).
-/

namespace IsaLogic

/-- The form with the two connectives exchanged. -/
def TwoLevel.dual : TwoLevel → TwoLevel
  | .conjunctive => .disjunctive
  | .disjunctive => .conjunctive

@[simp] theorem TwoLevel.dual_dual (form : TwoLevel) : form.dual.dual = form := by
  cases form <;> rfl

namespace Formula

/-- Truth of groups of literals: clauses in conjunctive form, cubes in disjunctive. -/
def groupsHold (form : TwoLevel) (valuation : Term → Bool) (groups : List (List Literal)) : Bool :=
  match form with
  | .conjunctive => groups.all fun clause => clause.any (Literal.holds valuation)
  | .disjunctive => groups.any fun cube => cube.all (Literal.holds valuation)

section Shape

variable (form : TwoLevel) (valuation : Term → Bool)

@[simp] theorem holds_ofGroups (groups : List (List Literal)) :
    (ofGroups form groups).holds valuation = groupsHold form valuation groups := by
  cases form <;>
    simp [ofGroups, ofClauses, ofCubes, groupsHold, List.all_map, List.any_map, Function.comp_def]

/-- Opposite literals in the dual form mean the opposite. -/
theorem groupsHold_negated (groups : List (List Literal)) :
    groupsHold form valuation (groups.map (List.map Literal.negated)) =
      !groupsHold form.dual valuation groups := by
  cases form <;>
    simp [groupsHold, TwoLevel.dual, List.all_map, List.any_map, Function.comp_def,
      List.not_all_eq_any_not, List.not_any_eq_all_not]

/-- Groups in conjunctive form hold where those in disjunctive form fail under opposite values. -/
theorem groupsHold_conjunctive (groups : List (List Literal)) :
    groupsHold .conjunctive valuation groups =
      !groupsHold .disjunctive (fun term => !valuation term) groups := by
  have opposite : ∀ literal : Literal,
      literal.holds (fun term => !valuation term) = !literal.holds valuation := by
    intro literal
    cases atTerm : valuation literal.term <;> simp [Literal.holds, atTerm]
  simp [groupsHold, opposite, List.not_all_eq_any_not, List.not_any_eq_all_not]

theorem mem_occurrences_ofGroups {groups : List (List Literal)} {term : Term} :
    term ∈ (ofGroups form groups).occurrences ↔
      ∃ group ∈ groups, ∃ literal ∈ group, term = literal.term := by
  cases form <;> simp [ofGroups, ofClauses, ofCubes, List.flatMap_map]

/-- What formulas inherit from literals, a two-level form inherits from its groups. -/
theorem Hereditary.ofGroups {property : Formula → Prop} (hereditary : Hereditary property)
    {groups : List (List Literal)}
    (literals : ∀ group ∈ groups, ∀ literal ∈ group, property literal.toFormula) :
    property (ofGroups form groups) := by
  have members : ∀ group ∈ groups, ∀ f ∈ group.map Literal.toFormula, property f :=
    fun group isGroup => List.forall_mem_map.mpr (literals group isGroup)
  cases form with
  | conjunctive =>
    exact hereditary.allOf (List.forall_mem_map.mpr fun group isGroup =>
      hereditary.anyOf (members group isGroup))
  | disjunctive =>
    exact hereditary.anyOf (List.forall_mem_map.mpr fun group isGroup =>
      hereditary.allOf (members group isGroup))

theorem literal?_toFormula (literal : Literal) : literal.toFormula.literal? = some literal := by
  obtain ⟨term, positive⟩ := literal
  cases positive <;> rfl

/-- A formula that is a literal is that literal as a formula. -/
theorem eq_toFormula_of_literal? {f : Formula} {literal : Literal} (is : f.literal? = some literal) :
    f = literal.toFormula := by
  unfold literal? at is
  split at is <;> cases is <;> rfl

theorem exists_literals {fs : List Formula} (literals : fs.all isLiteral = true) :
    ∃ group : List Literal, fs = group.map Literal.toFormula := by
  induction fs with
  | nil => exact ⟨[], rfl⟩
  | cons f fs ih =>
    rw [List.all_cons, Bool.and_eq_true] at literals
    obtain ⟨literal, is⟩ := Option.isSome_iff_exists.mp literals.1
    obtain ⟨group, rfl⟩ := ih literals.2
    exact ⟨literal :: group, by rw [eq_toFormula_of_literal? is]; rfl⟩

theorem groupLiterals_toFormula (literal : Literal) : literal.toFormula.groupLiterals = [literal] := by
  rw [groupLiterals, literal?_toFormula]

theorem filterMap_literal?_toFormula (group : List Literal) :
    (group.map Literal.toFormula).filterMap literal? = group := by
  induction group with
  | nil => rfl
  | cons literal group ih =>
    rw [List.map_cons, List.filterMap_cons_some (literal?_toFormula literal), ih]

/-- Truth of one group: a clause in conjunctive form, a cube in disjunctive. -/
def groupHolds (group : List Literal) : Bool :=
  match form with
  | .conjunctive => group.any (Literal.holds valuation)
  | .disjunctive => group.all (Literal.holds valuation)

/-- A flat group means its literals under the inner connective, and is over their terms. -/
theorem groupHolds_groupLiterals {f : Formula} (flat : f.isFlatGroup form = true) :
    groupHolds form valuation f.groupLiterals = f.holds valuation ∧
      ∀ l ∈ f.groupLiterals, l.term ∈ f.occurrences := by
  have terms : ∀ group : List Literal, ∀ l ∈ group,
      l.term ∈ (group.map Literal.toFormula).flatMap occurrences := by
    intro group l member
    exact List.mem_flatMap.mpr ⟨_, List.mem_map_of_mem member, by simp⟩
  rcases Bool.or_eq_true_iff.mp flat with single | several
  · obtain ⟨literal, is⟩ := Option.isSome_iff_exists.mp single
    obtain rfl := eq_toFormula_of_literal? is
    rw [groupLiterals_toFormula]
    cases form <;> simp [groupHolds]
  · cases form with
    | conjunctive =>
      cases f with
      | disj fs =>
        obtain ⟨group, rfl⟩ := exists_literals several
        rw [show (disj _).groupLiterals = group from filterMap_literal?_toFormula group,
          occurrences_disj]
        exact ⟨by simp [groupHolds, List.any_map, Function.comp_def], terms group⟩
      | _ => cases several
    | disjunctive =>
      cases f with
      | conj fs =>
        obtain ⟨group, rfl⟩ := exists_literals several
        rw [show (conj _).groupLiterals = group from filterMap_literal?_toFormula group,
          occurrences_conj]
        exact ⟨by simp [groupHolds, List.all_map, Function.comp_def], terms group⟩
      | _ => cases several

/-- The groups of a flat form mean the formula. -/
theorem groupsHold_groups {f : Formula} (flat : f.isFlat form = true) :
    groupsHold form valuation (f.groups form) = f.holds valuation := by
  have single : ∀ {f : Formula}, f.isFlatGroup form = true →
      groupsHold form valuation [f.groupLiterals] = f.holds valuation := by
    intro f flat
    rw [← (groupHolds_groupLiterals form valuation flat).1]
    cases form <;> simp [groupsHold, groupHolds]
  cases form with
  | conjunctive =>
    cases f with
    | constant value => cases value <;> rfl
    | conj fs =>
      simp only [groups, groupsHold, List.all_map, holds_conj]
      refine all_congr_of_mem fun f member => ?_
      simpa [groupsHold] using single (List.all_eq_true.mp flat f member)
    | _ => exact single flat
  | disjunctive =>
    cases f with
    | constant value => cases value <;> rfl
    | disj fs =>
      simp only [groups, groupsHold, List.any_map, holds_disj]
      refine any_congr_of_mem fun f member => ?_
      simpa [groupsHold] using single (List.all_eq_true.mp flat f member)
    | _ => exact single flat

/-- The literals of a flat form are over its terms. -/
theorem term_mem_of_groups {f : Formula} (flat : f.isFlat form = true) {group : List Literal}
    (member : group ∈ f.groups form) {literal : Literal} (inside : literal ∈ group) :
    literal.term ∈ f.occurrences := by
  have single : ∀ {f : Formula}, f.isFlatGroup form = true → literal ∈ f.groupLiterals →
      literal.term ∈ f.occurrences := by
    intro f flat inside
    exact (groupHolds_groupLiterals form (fun _ => true) flat).2 literal inside
  have nested : ∀ fs : List Formula, fs.all (isFlatGroup form) = true →
      group ∈ fs.map groupLiterals → literal.term ∈ fs.flatMap occurrences := by
    intro fs flat member
    obtain ⟨f, operand, rfl⟩ := List.mem_map.mp member
    exact List.mem_flatMap.mpr ⟨f, operand, single (List.all_eq_true.mp flat f operand) inside⟩
  cases form with
  | conjunctive =>
    cases f with
    | constant value =>
      cases value
      · rw [List.mem_singleton.mp member] at inside
        cases inside
      · cases member
    | conj fs => exact occurrences_conj fs ▸ nested fs flat member
    | _ => exact single flat (List.mem_singleton.mp member ▸ inside)
  | disjunctive =>
    cases f with
    | constant value =>
      cases value
      · cases member
      · rw [List.mem_singleton.mp member] at inside
        cases inside
    | disj fs => exact occurrences_disj fs ▸ nested fs flat member
    | _ => exact single flat (List.mem_singleton.mp member ▸ inside)

theorem isLiteral_toFormula (literal : Literal) : literal.toFormula.isLiteral = true := by
  rw [isLiteral, literal?_toFormula, Option.isSome_some]

/-- Groups that are not empty build a flat form. -/
theorem isFlat_ofGroups {groups : List (List Literal)} (nonempty : ∀ group ∈ groups, group ≠ []) :
    (ofGroups form groups).isFlat form = true := by
  have groupFlat : ∀ group : List Literal, group ≠ [] →
      (anyOf (group.map Literal.toFormula)).isFlatGroup .conjunctive = true ∧
        (allOf (group.map Literal.toFormula)).isFlatGroup .disjunctive = true := by
    intro group notEmpty
    rcases group with _ | ⟨literal, _ | ⟨second, rest⟩⟩
    · exact absurd rfl notEmpty
    · simp [anyOf, allOf, isFlatGroup, isLiteral_toFormula]
    · simp [anyOf, allOf, isFlatGroup, isLiteral_toFormula]
  have ofGroup : ∀ {f : Formula}, f.isFlatGroup form = true → f.isFlat form = true := by
    intro f flat
    cases form <;> cases f <;> first | exact flat | rfl | simp [isFlatGroup, isLiteral, literal?] at flat
  rcases groups with _ | ⟨group, _ | ⟨second, rest⟩⟩
  · cases form <;> rfl
  · have flat := groupFlat group (nonempty group (List.mem_singleton.mpr rfl))
    cases form with
    | conjunctive => exact ofGroup flat.1
    | disjunctive => exact ofGroup flat.2
  · have each := fun group member => groupFlat group (nonempty group member)
    cases form with
    | conjunctive =>
      change ((group :: second :: rest).map fun clause =>
        anyOf (clause.map Literal.toFormula)).all (isFlatGroup .conjunctive) = true
      exact List.all_eq_true.mpr (List.forall_mem_map.mpr fun group member => (each group member).1)
    | disjunctive =>
      change ((group :: second :: rest).map fun cube =>
        allOf (cube.map Literal.toFormula)).all (isFlatGroup .disjunctive) = true
      exact List.all_eq_true.mpr (List.forall_mem_map.mpr fun group member => (each group member).2)

theorem isFlat_ofGroups_of_alone {groups : List (List Literal)}
    (alone : [] ∈ groups → groups = [[]]) : (ofGroups form groups).isFlat form = true := by
  by_cases empty : [] ∈ groups
  · rw [alone empty]
    cases form <;> rfl
  · refine isFlat_ofGroups form ?_
    rintro group member rfl
    exact empty member

/-- The literals of a group are read back from it under either connective. -/
theorem groupLiterals_joined {group : List Literal} (nonempty : group ≠ []) :
    (anyOf (group.map Literal.toFormula)).groupLiterals = group ∧
      (allOf (group.map Literal.toFormula)).groupLiterals = group := by
  match group with
  | [] => exact absurd rfl nonempty
  | [literal] => exact ⟨groupLiterals_toFormula literal, groupLiterals_toFormula literal⟩
  | first :: second :: rest =>
    have back := filterMap_literal?_toFormula (first :: second :: rest)
    exact ⟨back, back⟩

/-- One group is read back from its form. -/
theorem groups_ofGroups_singleton (group : List Literal) :
    (ofGroups form [group]).groups form = [group] := by
  match group with
  | [] => cases form <;> rfl
  | [⟨term, positive⟩] => cases form <;> cases positive <;> rfl
  | first :: second :: rest =>
    obtain ⟨joined, met⟩ := groupLiterals_joined (List.cons_ne_nil first (second :: rest))
    cases form
    · exact congrArg (fun literals => [literals]) joined
    · exact congrArg (fun literals => [literals]) met

/-- Groups are read back from their form if an empty one stands alone. -/
theorem groups_ofGroups {groups : List (List Literal)} (alone : [] ∈ groups → groups = [[]]) :
    (ofGroups form groups).groups form = groups := by
  match groups with
  | [] => cases form <;> rfl
  | [group] => exact groups_ofGroups_singleton form group
  | first :: second :: rest =>
    have nonempty : ∀ group ∈ first :: second :: rest, group ≠ [] := by
      rintro group member rfl
      cases alone member
    have back : ∀ join : List Literal → Formula, (∀ group ∈ first :: second :: rest,
        (join group).groupLiterals = group) →
        ((first :: second :: rest).map join).map groupLiterals = first :: second :: rest := by
      intro join each
      rw [List.map_map]
      exact (List.map_congr_left each).trans (List.map_id _)
    cases form
    · exact back _ fun group member => (groupLiterals_joined (nonempty group member)).1
    · exact back _ fun group member => (groupLiterals_joined (nonempty group member)).2

/-- Clauses are read back from their conjunctive form if an empty one stands alone. -/
theorem clauses?_ofClauses {clauses : List (List Literal)} (alone : [] ∈ clauses → clauses = [[]]) :
    (ofClauses clauses).clauses? = some clauses := by
  have flat : (ofClauses clauses).isCnf = true := isFlat_ofGroups_of_alone .conjunctive alone
  rw [clauses?, if_pos flat]
  exact congrArg some (groups_ofGroups .conjunctive alone)

/-- An empty clause beside others makes a form that is not flat. -/
theorem clauses?_ofClauses_eq_none {clauses : List (List Literal)} (empty : [] ∈ clauses)
    (others : clauses ≠ [[]]) : (ofClauses clauses).clauses? = none := by
  match clauses with
  | [] => cases empty
  | [clause] => exact absurd (by rw [List.mem_singleton.mp empty]) others
  | first :: second :: rest =>
    refine if_neg fun flat => ?_
    have member : falsum ∈ (first :: second :: rest).map fun clause =>
        anyOf (clause.map Literal.toFormula) := List.mem_map.mpr ⟨[], empty, rfl⟩
    cases List.all_eq_true.mp flat falsum member

end Shape

/-- The connective that joins the groups of a form. -/
def outer : TwoLevel → List Formula → Formula
  | .conjunctive => conj
  | .disjunctive => disj

/-- The connective that joins the literals of a group. -/
def inner : TwoLevel → List Formula → Formula
  | .conjunctive => disj
  | .disjunctive => conj

/-- In disjunctive form, every group of one side with every group of the other is a conjunction. -/
theorem groupsHold_product (valuation : Term → Bool) (left right : List (List Literal)) :
    groupsHold .disjunctive valuation (left.flatMap fun l => right.map fun r => l ++ r) =
      (groupsHold .disjunctive valuation left && groupsHold .disjunctive valuation right) := by
  rw [Bool.eq_iff_iff]
  simp only [groupsHold, List.any_flatMap, List.any_map, Function.comp_def, List.all_append,
    Bool.and_eq_true, List.any_eq_true]
  constructor
  · rintro ⟨l, inLeft, r, inRight, holdsLeft, holdsRight⟩
    exact ⟨⟨l, inLeft, holdsLeft⟩, r, inRight, holdsRight⟩
  · rintro ⟨⟨l, inLeft, holdsLeft⟩, r, inRight, holdsRight⟩
    exact ⟨l, inLeft, r, inRight, holdsLeft, holdsRight⟩

/-- Groups that mean a formula and mention only its terms. -/
structure Spells (form : TwoLevel) (f : Formula) (groups : List (List Literal)) : Prop where
  truth : ∀ valuation, groupsHold form valuation groups = f.holds valuation
  terms : ∀ group ∈ groups, ∀ literal ∈ group, literal.term ∈ f.occurrences

namespace Spells

variable {form : TwoLevel} {f : Formula} {fs : List Formula} {left right : List (List Literal)}

theorem literal (literal : Literal) : Spells form literal.toFormula [[literal]] where
  truth valuation := by cases form <;> simp [groupsHold]
  terms := by simp

theorem outer_nil : Spells form (outer form []) [] where
  truth valuation := by cases form <;> simp [groupsHold, outer]
  terms := by simp

theorem inner_nil : Spells form (inner form []) [[]] where
  truth valuation := by cases form <;> simp [groupsHold, inner]
  terms := by simp

/-- The groups of the operands, one after the other, spell the outer connective. -/
theorem append (spellsLeft : Spells form f left) (spellsRight : Spells form (outer form fs) right) :
    Spells form (outer form (f :: fs)) (left ++ right) where
  truth valuation := by
    have atLeft := spellsLeft.truth valuation
    have atRight := spellsRight.truth valuation
    cases form <;> simp_all [groupsHold, outer]
  terms group member l inside := by
    have mentioned : l.term ∈ f.occurrences ∨ l.term ∈ (outer form fs).occurrences :=
      (List.mem_append.mp member).imp (spellsLeft.terms group · l inside)
        (spellsRight.terms group · l inside)
    cases form <;> simpa [outer] using mentioned

/-- Opposite literals in the dual form spell what the negation is spelled by. -/
theorem negated (spells : Spells form (neg f) left) :
    Spells form.dual f (left.map (List.map Literal.negated)) where
  truth valuation := by
    rw [groupsHold_negated, TwoLevel.dual_dual, spells.truth, holds_neg, Bool.not_not]
  terms group member l inside := by
    obtain ⟨given, isGiven, rfl⟩ := List.mem_map.mp member
    obtain ⟨literal, isLiteral, rfl⟩ := List.mem_map.mp inside
    exact spells.terms given isGiven literal isLiteral

/-- Every group of one side with every group of the other spells the inner connective. -/
theorem product (spellsLeft : Spells form (inner form fs) left) (spellsRight : Spells form f right) :
    Spells form (inner form (fs ++ [f])) (left.flatMap fun l => right.map fun r => l ++ r) where
  truth valuation := by
    have atLeft := spellsLeft.truth valuation
    have atRight := spellsRight.truth valuation
    cases form with
    | conjunctive =>
      rw [groupsHold_conjunctive] at atLeft atRight
      rw [groupsHold_conjunctive, groupsHold_product, Bool.not_and, atLeft, atRight]
      simp [inner]
    | disjunctive =>
      rw [groupsHold_product, atLeft, atRight]
      simp [inner]
  terms group member l inside := by
    obtain ⟨fromLeft, inLeft, pasted⟩ := List.mem_flatMap.mp member
    obtain ⟨fromRight, inRight, rfl⟩ := List.mem_map.mp pasted
    have mentioned : l.term ∈ (inner form fs).occurrences ∨ l.term ∈ f.occurrences :=
      (List.mem_append.mp inside).imp (spellsLeft.terms _ inLeft l) (spellsRight.terms _ inRight l)
    cases form <;> simpa [inner] using mentioned

end Spells

/-- What is computed within a budget where `answer` is without one: the same if no more groups were
emitted than the budget, and else the error that more were. -/
def WithinBudget (budget : Nat) (answer : Emitted) (result : Except QueryError Emitted) : Prop :=
  (answer.2 ≤ budget ∧ result = .ok answer) ∨
    ∃ count, budget < count ∧ count ≤ answer.2 ∧ result = .error (.sizeExplosion count budget)

/-- A computation of groups, from a number of groups emitted before. Without a budget it succeeds,
with groups of some property; a budget makes no difference but to stop it. -/
def Metered (property : List (List Literal) → Prop) (emitted : Nat)
    (run : Option Nat → Except QueryError Emitted) : Prop :=
  ∃ answer : Emitted, property answer.1 ∧ emitted ≤ answer.2 ∧ run none = .ok answer ∧
    ∀ budget, emitted ≤ budget → WithinBudget budget answer (run (some budget))

namespace Metered

variable {property before after : List (List Literal) → Prop} {emitted : Nat}
  {run : Option Nat → Except QueryError Emitted} {limit : Option Nat}

theorem pure {groups : List (List Literal)} (holds : property groups) :
    Metered property emitted fun _ => .ok (groups, emitted) :=
  ⟨(groups, emitted), holds, Nat.le_refl emitted, rfl, fun _ enough => .inl ⟨enough, rfl⟩⟩

/-- One computation after another stops where the first of them does. -/
theorem bind {next : Emitted → Option Nat → Except QueryError Emitted}
    (first : Metered before emitted run)
    (later : ∀ groups total, before groups → Metered after total (next (groups, total))) :
    Metered after emitted fun limit => run limit >>= fun answer => next answer limit := by
  obtain ⟨middle, holds, grows, free, guarded⟩ := first
  obtain ⟨answer, holdsAfter, growsAfter, freeAfter, guardedAfter⟩ := later middle.1 middle.2 holds
  refine ⟨answer, holdsAfter, Nat.le_trans grows growsAfter, ?_, fun budget enough => ?_⟩
  · dsimp only
    rw [free]
    exact freeAfter
  · dsimp only
    rcases guarded budget enough with ⟨within, same⟩ | ⟨count, exceeds, atMost, failed⟩
    · rw [same]
      exact guardedAfter budget within
    · rw [failed]
      exact .inr ⟨count, exceeds, Nat.le_trans atMost growsAfter, rfl⟩

theorem of_ok (metered : Metered property 0 run) {result : Emitted}
    (answer : run limit = .ok result) : property result.1 := by
  obtain ⟨free, holds, _, runFree, guarded⟩ := metered
  cases limit with
  | none =>
    cases runFree.symm.trans answer
    exact holds
  | some budget =>
    rcases guarded budget (Nat.zero_le budget) with ⟨_, same⟩ | ⟨count, _, _, failed⟩
    · cases same.symm.trans answer
      exact holds
    · cases failed.symm.trans answer

theorem of_error (metered : Metered property 0 run) {failure : QueryError}
    (answer : run limit = .error failure) :
    ∃ count bound, limit = some bound ∧ bound < count ∧ failure = .sizeExplosion count bound := by
  obtain ⟨free, _, _, runFree, guarded⟩ := metered
  cases limit with
  | none => cases runFree.symm.trans answer
  | some budget =>
    rcases guarded budget (Nat.zero_le budget) with ⟨_, same⟩ | ⟨count, exceeds, _, failed⟩
    · cases same.symm.trans answer
    · cases failed.symm.trans answer
      exact ⟨count, budget, rfl, exceeds, rfl⟩

end Metered

theorem metered_product (left right : List (List Literal)) (emitted : Nat) :
    Metered (· = left.flatMap fun l => right.map fun r => l ++ r) emitted
      fun limit => product limit left right emitted := by
  by_cases counts : (1 < left.length || 1 < right.length) = true
  · simp only [product, if_pos counts]
    refine ⟨_, rfl, Nat.le_add_right emitted _, rfl, fun budget _ => ?_⟩
    by_cases exceeds : budget < emitted + (left.flatMap fun l => right.map fun r => l ++ r).length
    · exact .inr ⟨_, exceeds, Nat.le_refl _, if_pos exceeds⟩
    · exact .inl ⟨Nat.le_of_not_lt exceeds, if_neg exceeds⟩
  · simp only [product, if_neg counts]
    exact Metered.pure rfl

/-- A relation between formulas and groups that every step of multiplying out keeps. -/
structure Distributive (form : TwoLevel) (relation : Formula → List (List Literal) → Prop) :
    Prop where
  literal : ∀ literal : Literal, relation literal.toFormula [[literal]]
  constant : ∀ value, relation (.constant value) ((Formula.constant value).groups form)
  outer_nil : relation (outer form []) []
  append : ∀ {f fs left right}, relation f left → relation (outer form fs) right →
    relation (outer form (f :: fs)) (left ++ right)
  inner_nil : relation (inner form []) [[]]
  product : ∀ {f fs left right}, relation (inner form fs) left → relation f right →
    relation (inner form (fs ++ [f])) (left.flatMap fun l => right.map fun r => l ++ r)

section MultiplyOut

variable {form : TwoLevel} {relation : Formula → List (List Literal) → Prop} {fs : List Formula}

/-- The groups of a formula, multiplied out, are related to it. -/
abbrev MultipliesOut (form : TwoLevel) (relation : Formula → List (List Literal) → Prop)
    (f : Formula) : Prop :=
  ∀ emitted, Metered (relation f) emitted fun limit => multiplyOut form limit f emitted

theorem metered_sumOut (distributive : Distributive form relation)
    (operands : ∀ f ∈ fs, MultipliesOut form relation f) (emitted : Nat) :
    Metered (relation (outer form fs)) emitted fun limit => sumOut form limit fs emitted := by
  induction fs generalizing emitted with
  | nil => exact Metered.pure distributive.outer_nil
  | cons f fs ih =>
    simp only [sumOut]
    refine (operands f (List.mem_cons_self ..) emitted).bind fun groups emitted related => ?_
    refine (ih (fun g member => operands g (List.mem_cons_of_mem _ member)) emitted).bind ?_
    exact fun rest emitted relatedRest => Metered.pure (distributive.append related relatedRest)

theorem metered_multiplyBy (distributive : Distributive form relation) {done : List Formula}
    {groups : List (List Literal)} (related : relation (inner form done) groups)
    (operands : ∀ f ∈ fs, MultipliesOut form relation f) (emitted : Nat) :
    Metered (relation (inner form (done ++ fs))) emitted
      fun limit => multiplyBy form limit groups fs emitted := by
  induction fs generalizing done groups emitted with
  | nil =>
    rw [List.append_nil]
    exact Metered.pure related
  | cons f fs ih =>
    simp only [multiplyBy]
    refine (operands f (List.mem_cons_self ..) emitted).bind fun right emitted relatedRight => ?_
    refine (metered_product groups right emitted).bind ?_
    rintro multiplied emitted rfl
    rw [List.append_cons]
    exact ih (distributive.product related relatedRight)
      (fun g member => operands g (List.mem_cons_of_mem _ member)) emitted

theorem metered_productOut (distributive : Distributive form relation)
    (operands : ∀ f ∈ fs, MultipliesOut form relation f) (emitted : Nat) :
    Metered (relation (inner form fs)) emitted fun limit => productOut form limit fs emitted := by
  cases fs with
  | nil => exact Metered.pure distributive.inner_nil
  | cons f fs =>
    simp only [productOut]
    refine (operands f (List.mem_cons_self ..) emitted).bind fun groups emitted related => ?_
    have alone : relation (inner form ([] ++ [f])) groups := by
      simpa using distributive.product distributive.inner_nil related
    exact metered_multiplyBy distributive alone
      (fun g member => operands g (List.mem_cons_of_mem _ member)) emitted

/-- What every step keeps, multiplying out a formula in negation normal form keeps. -/
theorem metered_multiplyOut (distributive : Distributive form relation) {f : Formula}
    (shape : f.IsNnf) : MultipliesOut form relation f := by
  intro emitted
  induction f using Formula.induct generalizing emitted with
  | constant value =>
    have related := distributive.constant value
    cases form <;> cases value <;> exact Metered.pure related
  | atom term => exact Metered.pure (distributive.literal { term, positive := true })
  | neg f =>
    cases shape
    exact Metered.pure (distributive.literal { term := _, positive := false })
  | conj fs ih =>
    have operands := fun f member => ih f member (shape.conj_operands f member)
    cases form
    · exact metered_sumOut distributive operands emitted
    · exact metered_productOut distributive operands emitted
  | disj fs ih =>
    have operands := fun f member => ih f member (shape.disj_operands f member)
    cases form
    · exact metered_productOut distributive operands emitted
    · exact metered_sumOut distributive operands emitted
  | exactlyOne fs | noneOf fs | implies a b => cases shape

theorem distributive_spells (form : TwoLevel) : Distributive form (Spells form) where
  literal := Spells.literal
  constant _ := ⟨fun valuation => groupsHold_groups form valuation rfl,
    fun _ member _ => term_mem_of_groups form rfl member⟩
  outer_nil := Spells.outer_nil
  append := Spells.append
  inner_nil := Spells.inner_nil
  product := Spells.product

end MultiplyOut

section Canonical

variable {groups : List (List Literal)}

/-- Without opposite literals, a group has at most one literal of each term. -/
theorem eq_of_not_isContradictory {group : List Literal} (consistent : isContradictory group = false)
    {literal other : Literal} (member : literal ∈ group) (isOther : other ∈ group)
    (sameTerm : other.term = literal.term) : other = literal := by
  have notOpposite : literal.negated ≠ other := by
    rintro rfl
    have contradictory : isContradictory group = true :=
      List.any_eq_true.mpr ⟨literal, member, List.contains_iff_mem.mpr isOther⟩
    rw [contradictory] at consistent
    cases consistent
  obtain ⟨term, positive⟩ := literal
  obtain ⟨otherTerm, otherPositive⟩ := other
  cases sameTerm
  cases positive <;> cases otherPositive <;> simp_all [Literal.negated]

theorem isContradictory_map_negated (group : List Literal) :
    isContradictory (group.map Literal.negated) = isContradictory group := by
  rw [isContradictory, List.any_map]
  refine any_congr_of_mem fun literal _ => ?_
  rw [Function.comp_apply, Bool.eq_iff_iff, List.contains_iff_mem, List.contains_iff_mem,
    List.mem_map]
  constructor
  · rintro ⟨other, member, opposite⟩
    rwa [← Literal.negated_negated other, opposite, Literal.negated_negated] at member
  · intro member
    exact ⟨literal.negated, member, rfl⟩

theorem mem_kept {group : List Literal} :
    group ∈ ((groups.map ascending).filter (!isContradictory ·)).eraseDups ↔
      (∃ given ∈ groups, ascending given = group) ∧ isContradictory group = false := by
  rw [List.mem_eraseDups, List.mem_filter, List.mem_map, Bool.not_eq_true']

/-- A group of the canonical form is one of the given groups in ascending order. -/
theorem mem_canonicalGroups {group : List Literal} (member : group ∈ canonicalGroups groups) :
    (∃ given ∈ groups, ascending given = group) ∧ isContradictory group = false := by
  unfold canonicalGroups at member
  dsimp only at member
  split at member
  · rename_i hasEmpty
    cases List.mem_singleton.mp member
    exact mem_kept.mp (List.contains_iff_mem.mp hasEmpty)
  · exact mem_kept.mp member

/-- A given group without opposite literals is kept, or makes way for the empty group. -/
theorem mem_canonicalGroups_or_nil {given : List Literal} (isGiven : given ∈ groups)
    (consistent : isContradictory (ascending given) = false) :
    ascending given ∈ canonicalGroups groups ∨ [] ∈ canonicalGroups groups := by
  unfold canonicalGroups
  dsimp only
  split
  · exact .inr (List.mem_singleton.mpr rfl)
  · exact .inl (mem_kept.mpr ⟨⟨given, isGiven, rfl⟩, consistent⟩)

/-- An empty group stands alone. -/
theorem canonicalGroups_alone (empty : [] ∈ canonicalGroups groups) :
    canonicalGroups groups = [[]] := by
  unfold canonicalGroups at empty ⊢
  dsimp only at empty ⊢
  split
  · rfl
  · rename_i noEmpty
    rw [if_neg noEmpty] at empty
    exact absurd (List.contains_iff_mem.mpr empty) noEmpty

/-- Opposite literals never hold together. -/
theorem not_all_of_isContradictory {group : List Literal}
    (contradictory : isContradictory group = true) (valuation : Term → Bool) :
    ¬ group.all (Literal.holds valuation) = true := by
  intro all
  obtain ⟨literal, member, opposite⟩ := List.any_eq_true.mp contradictory
  have both := List.all_eq_true.mp all
  have holdsNegated := both _ (List.contains_iff_mem.mp opposite)
  rw [Literal.holds_negated, both _ member] at holdsNegated
  cases holdsNegated

/-- In disjunctive form, what is dropped never holds or is said twice. -/
theorem groupsHold_disjunctive_canonicalGroups (valuation : Term → Bool)
    (groups : List (List Literal)) :
    groupsHold .disjunctive valuation (canonicalGroups groups) =
      groupsHold .disjunctive valuation groups := by
  have sameTruth : ∀ group : List Literal, (ascending group).all (Literal.holds valuation) =
      group.all (Literal.holds valuation) := by
    intro group
    rw [Bool.eq_iff_iff]
    simp
  rw [Bool.eq_iff_iff, groupsHold, groupsHold, List.any_eq_true, List.any_eq_true]
  constructor
  · rintro ⟨group, member, truth⟩
    obtain ⟨⟨given, isGiven, rfl⟩, _⟩ := mem_canonicalGroups member
    exact ⟨given, isGiven, sameTruth given ▸ truth⟩
  · rintro ⟨given, isGiven, truth⟩
    rw [← sameTruth] at truth
    cases contradictory : isContradictory (ascending given)
    · rcases mem_canonicalGroups_or_nil isGiven contradictory with kept | empty
      · exact ⟨_, kept, truth⟩
      · exact ⟨[], empty, rfl⟩
    · exact absurd truth (not_all_of_isContradictory contradictory valuation)

/-- Sorting groups and dropping contradictory and repeated ones keeps their meaning. -/
theorem groupsHold_canonicalGroups (form : TwoLevel) (valuation : Term → Bool)
    (groups : List (List Literal)) :
    groupsHold form valuation (canonicalGroups groups) = groupsHold form valuation groups := by
  cases form with
  | conjunctive =>
    rw [groupsHold_conjunctive, groupsHold_disjunctive_canonicalGroups, ← groupsHold_conjunctive]
  | disjunctive => exact groupsHold_disjunctive_canonicalGroups valuation groups

theorem Spells.canonicalGroups {form : TwoLevel} {f : Formula} (spells : Spells form f groups) :
    Spells form f (canonicalGroups groups) where
  truth valuation := by rw [groupsHold_canonicalGroups, spells.truth]
  terms group member l inside := by
    obtain ⟨⟨given, isGiven, rfl⟩, _⟩ := mem_canonicalGroups member
    exact spells.terms given isGiven l (mem_ascending.mp inside)

end Canonical

section EquivalentForm

variable {form : TwoLevel} {limit : Option Nat} {f : Formula}

/-- What rewriting towards two-level forms keeps: meaning and terms. -/
theorem Spells.of_rewritten {groups : List (List Literal)}
    (spells : Spells form f.nnf.reduce.binary groups) : Spells form f groups where
  truth valuation := by rw [spells.truth, holds_binary, holds_reduce, holds_nnf]
  terms group member l inside := by
    have onlyOwn : f.nnf.reduce.binary.MentionsOnly (· ∈ f.occurrences) :=
      mentionsOnly_binary (mentionsOnly_reduce (mentionsOnly_nnf fun t occurs => occurs))
    exact onlyOwn l.term (spells.terms group member l inside)

theorem metered_rewritten (form : TwoLevel) (f : Formula) :
    Metered (Spells form f.nnf.reduce.binary) 0
      fun limit => multiplyOut form limit f.nnf.reduce.binary 0 :=
  metered_multiplyOut (distributive_spells form) (isNnf_binary (isNnf_reduce (isNnf_nnf f))) 0

/-- The groups of the equivalent form are canonical groups that spell the formula. -/
theorem equivalentGroups_ok {groups : List (List Literal)}
    (answer : f.equivalentGroups form limit = .ok groups) :
    Spells form f groups ∧ ∃ given, groups = canonicalGroups given := by
  unfold equivalentGroups at answer
  cases result : multiplyOut form limit f.nnf.reduce.binary 0 with
  | error failure => rw [result] at answer; cases answer
  | ok emitted =>
    rw [result] at answer
    cases answer
    have spells := (metered_rewritten form f).of_ok result
    exact ⟨spells.canonicalGroups.of_rewritten, emitted.1, rfl⟩

/-- The equivalent form fails only by emitting more groups than its budget. -/
theorem equivalentGroups_error {failure : QueryError}
    (answer : f.equivalentGroups form limit = .error failure) :
    ∃ count bound, limit = some bound ∧ bound < count ∧ failure = .sizeExplosion count bound := by
  unfold equivalentGroups at answer
  cases result : multiplyOut form limit f.nnf.reduce.binary 0 with
  | error failure =>
    rw [result] at answer
    cases answer
    exact (metered_rewritten form f).of_error result
  | ok emitted => rw [result] at answer; cases answer

/-- Within a budget there are groups, or there are more of them than it allows. -/
theorem equivalentGroups_cases (form : TwoLevel) (limit : Nat) (f : Formula) :
    (∃ groups, f.equivalentGroups form (some limit) = .ok groups) ∨
      ∃ count, f.equivalentGroups form (some limit) = .error (.sizeExplosion count limit) := by
  cases result : f.equivalentGroups form (some limit) with
  | ok groups => exact .inl ⟨groups, rfl⟩
  | error failure =>
    obtain ⟨count, bound, isBound, _, rfl⟩ := equivalentGroups_error result
    cases isBound
    exact .inr ⟨count, rfl⟩

/-- Within a budget there is an equivalent form, or it would have more groups than it allows. -/
theorem equivalentForm_cases (form : TwoLevel) (limit : Nat) (f : Formula) :
    (∃ g, f.equivalentForm form (some limit) = .ok g) ∨
      ∃ count, f.equivalentForm form (some limit) = .error (.sizeExplosion count limit) := by
  unfold equivalentForm
  rcases equivalentGroups_cases form limit f with ⟨groups, within⟩ | ⟨count, oversized⟩
  · exact .inl ⟨_, congrArg _ within⟩
  · exact .inr ⟨count, congrArg _ oversized⟩

/-- The equivalent form is flat, means the formula and mentions only its terms. -/
theorem equivalentForm_ok {g : Formula} (answer : f.equivalentForm form limit = .ok g) :
    g.isFlat form = true ∧ g.Equivalent f ∧ g.MentionsOnly (· ∈ f.occurrences) := by
  unfold equivalentForm at answer
  cases result : f.equivalentGroups form limit with
  | error failure => rw [result] at answer; cases answer
  | ok groups =>
    rw [result] at answer
    cases answer
    obtain ⟨spells, given, rfl⟩ := equivalentGroups_ok result
    refine ⟨isFlat_ofGroups_of_alone form canonicalGroups_alone, fun valuation => ?_,
      fun t occurs => ?_⟩
    · rw [holds_ofGroups, spells.truth]
    · obtain ⟨group, member, l, inside, rfl⟩ := (mem_occurrences_ofGroups form).mp occurs
      exact spells.terms group member l inside

end EquivalentForm

end Formula

end IsaLogic
