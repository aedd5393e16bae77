import IsaLogic.Proofs.Formula.Flattening

/-!
# Proper formulas

In a proper formula no list of operands is too short to need its connective (`isProper`), so
none of its connectives collapses when it is built anew. A flat two-level formula that is
proper is therefore rebuilt from its groups of literals, as it was (`ofGroups_groups`).
-/

namespace IsaLogic.Formula

/-- Whether every list of operands has at least two members. -/
def isProper : Formula → Bool :=
  let several := fun checked : List Bool => decide (1 < checked.length) && checked.all id
  fold {
    constant := fun _ => true
    atom := fun _ => true
    neg := id
    conj := several
    disj := several
    exactlyOne := several
    noneOf := several
    implies := and }

variable {form : TwoLevel} {f : Formula} {fs : List Formula}

theorem isProper_conj : (conj fs).isProper ↔ 1 < fs.length ∧ ∀ f ∈ fs, f.isProper := by
  simp [isProper, fold, foldList_eq_map]

theorem isProper_disj : (disj fs).isProper ↔ 1 < fs.length ∧ ∀ f ∈ fs, f.isProper := by
  simp [isProper, fold, foldList_eq_map]

theorem isProper_exactlyOne : (exactlyOne fs).isProper ↔ 1 < fs.length ∧ ∀ f ∈ fs, f.isProper := by
  simp [isProper, fold, foldList_eq_map]

theorem isProper_noneOf : (noneOf fs).isProper ↔ 1 < fs.length ∧ ∀ f ∈ fs, f.isProper := by
  simp [isProper, fold, foldList_eq_map]

theorem isProper_implies {a b : Formula} : (implies a b).isProper ↔ a.isProper ∧ b.isProper := by
  simp [isProper, fold]

section Groups

theorem isProper_outer : (outer form fs).isProper ↔ 1 < fs.length ∧ ∀ f ∈ fs, f.isProper := by
  cases form
  · exact isProper_conj
  · exact isProper_disj

/-- A connective over several operands does not collapse. -/
theorem joined_of_several (several : 1 < fs.length) : joined form fs = outer form fs := by
  rcases fs with _ | ⟨first, _ | ⟨second, rest⟩⟩
  · simp at several
  · simp at several
  · cases form <;> rfl

theorem joined_singleton (form : TwoLevel) (f : Formula) : joined form [f] = f := by
  cases form <;> rfl

/-- The formula of one group of literals. -/
def ofGroup (form : TwoLevel) (group : List Literal) : Formula :=
  joined form.dual (group.map Literal.toFormula)

theorem ofGroups_eq (form : TwoLevel) (groups : List (List Literal)) :
    ofGroups form groups = joined form (groups.map (ofGroup form)) := by
  cases form <;> rfl

/-- A proper group is rebuilt from its literals. -/
theorem ofGroup_groupLiterals (flat : f.isFlatGroup form = true) (proper : f.isProper) :
    ofGroup form f.groupLiterals = f := by
  rcases isFlatGroup_iff.mp flat with single | ⟨fs, rfl, literals⟩
  · obtain ⟨literal, is⟩ := Option.isSome_iff_exists.mp single
    obtain rfl := eq_toFormula_of_literal? is
    rw [groupLiterals_toFormula]
    exact joined_singleton form.dual literal.toFormula
  · obtain ⟨group, rfl⟩ := exists_literals (List.all_eq_true.mpr literals)
    have read : (outer form.dual (group.map Literal.toFormula)).groupLiterals = group := by
      cases form <;> exact filterMap_literal?_toFormula group
    rw [read]
    exact joined_of_several (isProper_outer.mp proper).1

theorem groups_outer (form : TwoLevel) (fs : List Formula) :
    (outer form fs).groups form = fs.map groupLiterals := by
  cases form <;> rfl

/-- A formula has a group for each operand, or one or none. -/
theorem length_groups_le (form : TwoLevel) (f : Formula) :
    (f.groups form).length ≤ max 1 f.operands.length := by
  cases form with
  | conjunctive =>
    cases f with
    | constant value => cases value <;> simp [groups]
    | conj fs => simp [groups, operands]
    | _ => exact Nat.le_max_left 1 _
  | disjunctive =>
    cases f with
    | constant value => cases value <;> simp [groups]
    | disj fs => simp [groups, operands]
    | _ => exact Nat.le_max_left 1 _

/-- A flat formula that is proper is rebuilt from its groups. -/
theorem ofGroups_groups (flat : f.isFlat form = true) (proper : f.isProper) :
    ofGroups form (f.groups form) = f := by
  have single : f.isFlatGroup form = true → f.groups form = [f.groupLiterals] →
      ofGroups form (f.groups form) = f := by
    intro flatGroup groups
    rw [groups, ofGroups_eq, List.map_singleton, ofGroup_groupLiterals flatGroup proper,
      joined_singleton]
  by_cases isOuter : ∃ fs, f = outer form fs
  · obtain ⟨fs, rfl⟩ := isOuter
    obtain ⟨several, each⟩ := isProper_outer.mp proper
    have flatGroups : ∀ f ∈ fs, f.isFlatGroup form = true := by
      cases form <;> exact List.all_eq_true.mp flat
    have rebuilt : (fs.map groupLiterals).map (ofGroup form) = fs := by
      rw [List.map_map]
      refine (List.map_congr_left fun f member => ?_).trans (List.map_id fs)
      exact ofGroup_groupLiterals (flatGroups f member) (each f member)
    rw [groups_outer, ofGroups_eq, rebuilt, joined_of_several several]
  · cases form with
    | conjunctive =>
      cases f with
      | constant value => cases value <;> rfl
      | conj fs => exact absurd ⟨fs, rfl⟩ isOuter
      | _ => exact single flat rfl
    | disjunctive =>
      cases f with
      | constant value => cases value <;> rfl
      | disj fs => exact absurd ⟨fs, rfl⟩ isOuter
      | _ => exact single flat rfl

end Groups

end IsaLogic.Formula
