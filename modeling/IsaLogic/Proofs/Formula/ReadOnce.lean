import IsaLogic.Proofs.Formula.TwoLevel
import IsaLogic.Proofs.Term.Order

/-!
# Formulas that read each term once

In negation normal form every occurrence of a term has a sign; the occurrences with
their signs are the `leaves`. Rewriting towards a two-level form adds no leaf
(`NnfOver`), so the clauses of a formula that reads each term once have each term in
one sense only. The valuation that makes all leaves true but one then satisfies every
clause except one of that leaf alone: each literal that follows from the formula is a
clause by itself (`mem_of_entailed_once`).
-/

namespace IsaLogic.Formula

/-- Every occurrence of a term with its sign, from left to right. -/
def leaves : Formula → List Literal :=
  fold {
    constant := fun _ => []
    atom := fun term => [{ term, positive := true }]
    neg := List.map Literal.negated
    conj := List.flatten
    disj := List.flatten
    exactlyOne := List.flatten
    noneOf := List.flatten
    implies := fun a b => a.map Literal.negated ++ b }

section Leaves

@[simp] theorem leaves_conj (fs : List Formula) : (conj fs).leaves = fs.flatMap leaves := by
  simp [leaves, fold, foldList_eq_map, List.flatMap]

@[simp] theorem leaves_disj (fs : List Formula) : (disj fs).leaves = fs.flatMap leaves := by
  simp [leaves, fold, foldList_eq_map, List.flatMap]

@[simp] theorem leaves_toFormula (literal : Literal) : literal.toFormula.leaves = [literal] := by
  obtain ⟨term, positive⟩ := literal
  cases positive <;> rfl

theorem map_term_negated (literals : List Literal) :
    (literals.map Literal.negated).map Literal.term = literals.map Literal.term := by
  rw [List.map_map]
  rfl

/-- Without their signs the leaves are the occurrences. -/
theorem map_term_leaves (f : Formula) : f.leaves.map Literal.term = f.occurrences := by
  have operands : ∀ fs : List Formula, (∀ f ∈ fs, f.leaves.map Literal.term = f.occurrences) →
      (fs.flatMap leaves).map Literal.term = fs.flatMap occurrences := by
    intro fs ih
    rw [List.map_flatMap, List.flatMap, List.flatMap, List.map_congr_left ih]
  induction f using Formula.induct with
  | constant value => rfl
  | atom term => rfl
  | neg f ih => exact (map_term_negated f.leaves).trans ih
  | conj fs ih => rw [leaves_conj, occurrences_conj, operands fs ih]
  | disj fs ih => rw [leaves_disj, occurrences_disj, operands fs ih]
  | exactlyOne fs ih =>
    have flat : (exactlyOne fs).leaves = fs.flatMap leaves := by
      simp [leaves, fold, foldList_eq_map, List.flatMap]
    rw [flat, occurrences_exactlyOne, operands fs ih]
  | noneOf fs ih =>
    have flat : (noneOf fs).leaves = fs.flatMap leaves := by
      simp [leaves, fold, foldList_eq_map, List.flatMap]
    rw [flat, occurrences_noneOf, operands fs ih]
  | implies a b ihA ihB =>
    change (a.leaves.map Literal.negated ++ b.leaves).map Literal.term = _
    rw [List.map_append, map_term_negated, ihA, ihB, occurrences_implies]

end Leaves

/-- A negation normal form all of whose literals are allowed. -/
inductive NnfOver (allowed : Literal → Prop) : Formula → Prop where
  | constant (value : Bool) : NnfOver allowed (.constant value)
  | atom {term : Term} (isAllowed : allowed { term, positive := true }) :
    NnfOver allowed (.atom term)
  | negAtom {term : Term} (isAllowed : allowed { term, positive := false }) :
    NnfOver allowed (.neg (.atom term))
  | conj {fs : List Formula} (operands : ∀ f ∈ fs, NnfOver allowed f) : NnfOver allowed (.conj fs)
  | disj {fs : List Formula} (operands : ∀ f ∈ fs, NnfOver allowed f) : NnfOver allowed (.disj fs)

namespace NnfOver

variable {allowed : Literal → Prop} {f : Formula} {fs : List Formula}

/-- A formula in negation normal form has its own leaves. -/
theorem ofLeaves (shape : f.IsNnf) (leaves : ∀ literal ∈ f.leaves, allowed literal) :
    NnfOver allowed f := by
  induction shape with
  | constant value => exact .constant value
  | atom term => exact .atom (leaves _ (List.mem_singleton.mpr rfl))
  | negAtom term => exact .negAtom (leaves _ (List.mem_singleton.mpr rfl))
  | @conj fs _ ih =>
    rw [leaves_conj] at leaves
    exact .conj fun f member => ih f member fun literal isLeaf =>
      leaves literal (List.mem_flatMap.mpr ⟨f, member, isLeaf⟩)
  | @disj fs _ ih =>
    rw [leaves_disj] at leaves
    exact .disj fun f member => ih f member fun literal isLeaf =>
      leaves literal (List.mem_flatMap.mpr ⟨f, member, isLeaf⟩)

theorem allOf (operands : ∀ f ∈ fs, NnfOver allowed f) : NnfOver allowed (allOf fs) := by
  match fs with
  | [] => exact .constant true
  | [f] => exact operands f (List.mem_singleton.mpr rfl)
  | f :: g :: rest => exact .conj operands

theorem anyOf (operands : ∀ f ∈ fs, NnfOver allowed f) : NnfOver allowed (anyOf fs) := by
  match fs with
  | [] => exact .constant false
  | [f] => exact operands f (List.mem_singleton.mpr rfl)
  | f :: g :: rest => exact .disj operands

theorem conj_operands (within : NnfOver allowed (.conj fs)) : ∀ f ∈ fs, NnfOver allowed f := by
  cases within
  assumption

theorem disj_operands (within : NnfOver allowed (.disj fs)) : ∀ f ∈ fs, NnfOver allowed f := by
  cases within
  assumption

theorem outer_iff {form : TwoLevel} :
    NnfOver allowed (outer form fs) ↔ ∀ f ∈ fs, NnfOver allowed f := by
  cases form
  · exact ⟨conj_operands, .conj⟩
  · exact ⟨disj_operands, .disj⟩

theorem inner_iff {form : TwoLevel} :
    NnfOver allowed (inner form fs) ↔ ∀ f ∈ fs, NnfOver allowed f := by
  cases form
  · exact ⟨disj_operands, .disj⟩
  · exact ⟨conj_operands, .conj⟩

/-- Negation normal form changes no sign of a formula that has it already. -/
theorem nnf (within : NnfOver allowed f) : NnfOver allowed f.nnf := by
  induction within with
  | constant value => exact .constant _
  | atom isAllowed => exact .atom isAllowed
  | negAtom isAllowed => exact .negAtom isAllowed
  | @conj fs _ ih =>
    rw [Formula.nnf, nnfWith_conj, if_pos rfl]
    exact allOf (List.forall_mem_map.mpr ih)
  | @disj fs _ ih =>
    rw [Formula.nnf, nnfWith_disj, if_pos rfl]
    exact anyOf (List.forall_mem_map.mpr ih)

theorem reduce (within : NnfOver allowed f) : NnfOver allowed f.reduce := by
  induction within with
  | constant value => exact .constant value
  | atom isAllowed => exact .atom isAllowed
  | negAtom isAllowed => exact .negAtom isAllowed
  | @conj fs _ ih =>
    rw [reduce_conj]
    exact reduceConj_induction
      (forall_mem_spliceConj (List.forall_mem_map.mpr ih) fun _ => conj_operands) constant
      fun _ => allOf
  | @disj fs _ ih =>
    rw [reduce_disj]
    exact reduceDisj_induction
      (forall_mem_spliceDisj (List.forall_mem_map.mpr ih) fun _ => disj_operands) constant
      fun _ => anyOf

theorem binary (within : NnfOver allowed f) : NnfOver allowed f.binary := by
  induction within with
  | constant value => exact .constant value
  | atom isAllowed => exact .atom isAllowed
  | negAtom isAllowed => exact .negAtom isAllowed
  | @conj fs _ ih =>
    rw [binary_conj]
    exact chain_induction (.constant true)
      (fun f g overF overG => .conj (by simp [overF, overG])) (List.forall_mem_map.mpr ih)
  | @disj fs _ ih =>
    rw [binary_disj]
    exact chain_induction (.constant false)
      (fun f g overF overG => .disj (by simp [overF, overG])) (List.forall_mem_map.mpr ih)

end NnfOver

/-- Groups of allowed literals. -/
def GroupsOver (allowed : Literal → Prop) (groups : List (List Literal)) : Prop :=
  ∀ group ∈ groups, ∀ literal ∈ group, allowed literal

section MultiplyOut

variable {allowed : Literal → Prop} {form : TwoLevel} {limit : Option Nat}

theorem GroupsOver.append {left right : List (List Literal)} (overLeft : GroupsOver allowed left)
    (overRight : GroupsOver allowed right) : GroupsOver allowed (left ++ right) := by
  intro group member
  exact (List.mem_append.mp member).elim (overLeft group) (overRight group)

theorem GroupsOver.product {left right : List (List Literal)} (overLeft : GroupsOver allowed left)
    (overRight : GroupsOver allowed right) :
    GroupsOver allowed (left.flatMap fun l => right.map fun r => l ++ r) := by
  intro group member literal inside
  obtain ⟨fromLeft, inLeft, pasted⟩ := List.mem_flatMap.mp member
  obtain ⟨fromRight, inRight, rfl⟩ := List.mem_map.mp pasted
  exact (List.mem_append.mp inside).elim (overLeft fromLeft inLeft literal)
    (overRight fromRight inRight literal)

/-- Multiplying out only regroups the leaves. -/
theorem distributive_over (form : TwoLevel) (allowed : Literal → Prop) :
    Distributive form fun f groups => NnfOver allowed f → GroupsOver allowed groups where
  literal := by
    rintro ⟨term, positive⟩ within
    cases positive <;> cases within <;> simpa [GroupsOver]
  constant value _ group member literal inside := by
    cases form <;> cases value <;> simp_all [groups]
  outer_nil _ group member := nomatch member
  append overLeft overRight within := by
    rw [NnfOver.outer_iff, List.forall_mem_cons] at within
    exact (overLeft within.1).append (overRight (NnfOver.outer_iff.mpr within.2))
  inner_nil := by simp [GroupsOver]
  product overLeft overRight within := by
    rw [NnfOver.inner_iff, List.forall_mem_append, List.forall_mem_singleton] at within
    exact (overLeft (NnfOver.inner_iff.mpr within.1)).product (overRight within.2)

/-- The groups of the equivalent form of a formula in negation normal form consist of its leaves,
and repeat none in a group. -/
theorem leaves_of_equivalentGroups {f : Formula} (shape : f.IsNnf) {groups : List (List Literal)}
    (answer : f.equivalentGroups form limit = .ok groups) :
    GroupsOver (· ∈ f.leaves) groups ∧ ∀ group ∈ groups, group.Nodup := by
  have own : NnfOver (· ∈ f.leaves) f := .ofLeaves shape fun _ isLeaf => isLeaf
  unfold equivalentGroups at answer
  cases result : multiplyOut form limit f.nnf.reduce.binary 0 with
  | error failure => rw [result] at answer; cases answer
  | ok emitted =>
    rw [result] at answer
    cases answer
    have within := (metered_multiplyOut (distributive_over form _)
      (isNnf_binary (isNnf_reduce (isNnf_nnf f))) 0).of_ok result own.nnf.reduce.binary
    refine ⟨fun group member literal inside => ?_, fun group member => ?_⟩
    · obtain ⟨⟨given, isGiven, rfl⟩, _⟩ := mem_canonicalGroups member
      exact within given isGiven literal (mem_ascending.mp inside)
    · obtain ⟨⟨given, _, rfl⟩, _⟩ := mem_canonicalGroups member
      exact distinct_ascending given

end MultiplyOut

section Flat

variable {f : Formula}

/-- Flattening keeps the occurrences in their order. -/
theorem occurrences_flatten (f : Formula) : f.flatten.occurrences = f.occurrences := by
  have mapped : ∀ fs : List Formula, (∀ f ∈ fs, f.flatten.occurrences = f.occurrences) →
      (fs.map flatten).flatMap occurrences = fs.flatMap occurrences := by
    intro fs ih
    rw [List.flatMap_map, List.flatMap, List.flatMap, List.map_congr_left ih]
  have spliced : ∀ fs : List Formula, (spliceConj fs).flatMap occurrences = fs.flatMap occurrences ∧
      (spliceDisj fs).flatMap occurrences = fs.flatMap occurrences := by
    intro fs
    induction fs with
    | nil => exact ⟨rfl, rfl⟩
    | cons f fs ih =>
      rw [spliceConj_cons, spliceDisj_cons, List.flatMap_append, List.flatMap_append, ih.1, ih.2,
        List.flatMap_cons]
      cases f <;> simp
  induction f using Formula.induct with
  | constant value => rfl
  | atom term => rfl
  | neg f ih => exact ih
  | conj fs ih =>
    rw [flatten_conj, occurrences_allOf, (spliced _).1, mapped fs ih, occurrences_conj]
  | disj fs ih =>
    rw [flatten_disj, occurrences_anyOf, (spliced _).2, mapped fs ih, occurrences_disj]
  | exactlyOne fs ih =>
    rw [flatten_exactlyOne, occurrences_oneOf, mapped fs ih, occurrences_exactlyOne]
  | noneOf fs ih => rw [flatten_noneOf, occurrences_nor, mapped fs ih, occurrences_noneOf]
  | implies a b ihA ihB =>
    change a.flatten.occurrences ++ b.flatten.occurrences = _
    rw [ihA, ihB, occurrences_implies]

theorem areNestedGroups_iff {form : TwoLevel} {fs : List Formula} :
    areNestedGroups form fs = true ↔ ∀ f ∈ fs, f.isNestedGroup form = true := by
  induction fs with
  | nil => simp [areNestedGroups]
  | cons f fs ih => simp [areNestedGroups, ih]

theorem areNested_iff {form : TwoLevel} {fs : List Formula} :
    areNested form fs = true ↔ ∀ f ∈ fs, f.isNested form = true := by
  induction fs with
  | nil => simp [areNested]
  | cons f fs ih => simp [areNested, ih]

theorem isNnf_of_isNestedGroup {form : TwoLevel} (nested : f.isNestedGroup form = true) :
    f.IsNnf := by
  induction f using Formula.induct with
  | atom term => exact .atom term
  | neg f =>
    cases f with
    | atom term => exact .negAtom term
    | _ => simp [isNestedGroup] at nested
  | conj fs ih =>
    simp only [isNestedGroup, Bool.and_eq_true, areNestedGroups_iff] at nested
    exact .conj fun f member => ih f member (nested.2 f member)
  | disj fs ih =>
    simp only [isNestedGroup, Bool.and_eq_true, areNestedGroups_iff] at nested
    exact .disj fun f member => ih f member (nested.2 f member)
  | constant value | exactlyOne fs | noneOf fs | implies a b => simp [isNestedGroup] at nested

/-- Two-level forms, also nested ones, are in negation normal form. -/
theorem isNnf_of_isNested {form : TwoLevel} (nested : f.isNested form = true) : f.IsNnf := by
  induction f using Formula.induct with
  | constant value => exact .constant value
  | conj fs ih =>
    cases form with
    | conjunctive =>
      simp only [isNested, areNested_iff] at nested
      exact .conj fun f member => ih f member (nested f member)
    | disjunctive =>
      simp only [isNested, areNestedGroups_iff] at nested
      exact .conj fun f member => isNnf_of_isNestedGroup (nested f member)
  | disj fs ih =>
    cases form with
    | conjunctive =>
      simp only [isNested, areNestedGroups_iff] at nested
      exact .disj fun f member => isNnf_of_isNestedGroup (nested f member)
    | disjunctive =>
      simp only [isNested, areNested_iff] at nested
      exact .disj fun f member => ih f member (nested f member)
  | atom term | neg f | exactlyOne fs | noneOf fs | implies a b =>
    exact isNnf_of_isNestedGroup (show isNestedGroup form _ = true from nested)

theorem groupLiterals_eq_leaves {form : TwoLevel} (flat : f.isFlatGroup form = true) :
    f.groupLiterals = f.leaves := by
  have joined : ∀ group : List Literal, (group.map Literal.toFormula).flatMap leaves = group := by
    intro group
    simp [List.flatMap_map]
  rcases Bool.or_eq_true_iff.mp flat with single | several
  · obtain ⟨literal, is⟩ := Option.isSome_iff_exists.mp single
    obtain rfl := eq_toFormula_of_literal? is
    rw [groupLiterals_toFormula, leaves_toFormula]
  · cases form with
    | conjunctive =>
      cases f with
      | disj fs =>
        obtain ⟨group, rfl⟩ := exists_literals several
        rw [show (disj _).groupLiterals = group from filterMap_literal?_toFormula group,
          leaves_disj, joined]
      | _ => cases several
    | disjunctive =>
      cases f with
      | conj fs =>
        obtain ⟨group, rfl⟩ := exists_literals several
        rw [show (conj _).groupLiterals = group from filterMap_literal?_toFormula group,
          leaves_conj, joined]
      | _ => cases several

/-- The literals of a group of a flat form are among the leaves, in their order. -/
theorem sublist_leaves_of_clauses? {clauses : List (List Literal)}
    (flat : f.clauses? = some clauses) {clause : List Literal} (member : clause ∈ clauses) :
    clause.Sublist f.leaves := by
  unfold clauses? at flat
  split at flat
  · rename_i isCnf
    cases flat
    cases f with
    | constant value =>
      cases value
      · rw [List.mem_singleton.mp member]
        exact List.nil_sublist _
      · cases member
    | conj fs =>
      obtain ⟨f, operand, rfl⟩ := List.mem_map.mp member
      have isGroup := List.all_eq_true.mp isCnf f operand
      rw [leaves_conj, groupLiterals_eq_leaves isGroup]
      exact List.sublist_flatten_of_mem (List.mem_map_of_mem operand)
    | _ =>
      have same := (List.mem_singleton.mp member).trans
        (groupLiterals_eq_leaves (show isFlatGroup .conjunctive _ = true from isCnf))
      exact same ▸ List.Sublist.refl _
  · cases flat

end Flat

section Entailed

variable {leaves : List Literal} {clauses : List (List Literal)} {literal : Literal}

theorem eq_of_sameTerm (once : (leaves.map Literal.term).Nodup) {leaf other : Literal}
    (isLeaf : leaf ∈ leaves) (isOther : other ∈ leaves) (sameTerm : other.term = leaf.term) :
    other = leaf := by
  induction leaves with
  | nil => cases isLeaf
  | cons first rest ih =>
    obtain ⟨notLater, once⟩ := List.nodup_cons.mp once
    rcases List.mem_cons.mp isLeaf with rfl | leafLater
    · rcases List.mem_cons.mp isOther with rfl | otherLater
      · rfl
      · exact absurd (sameTerm ▸ List.mem_map_of_mem otherLater) notLater
    · rcases List.mem_cons.mp isOther with rfl | otherLater
      · exact absurd (sameTerm.symm ▸ List.mem_map_of_mem leafLater) notLater
      · exact ih once leafLater otherLater

/-- The valuation that makes all leaves true, except that a literal fails. -/
def against (leaves : List Literal) (literal : Literal) (term : Term) : Bool :=
  if term = literal.term then !literal.positive
  else leaves.any fun leaf => leaf.term == term && leaf.positive

theorem holds_against_self : literal.holds (against leaves literal) = false := by
  simp [Literal.holds, against]

theorem holds_against (once : (leaves.map Literal.term).Nodup) {leaf : Literal}
    (isLeaf : leaf ∈ leaves) (other : leaf.term ≠ literal.term) :
    leaf.holds (against leaves literal) = true := by
  rw [Literal.holds, against, if_neg other, beq_iff_eq, Bool.eq_iff_iff, List.any_eq_true]
  constructor
  · rintro ⟨found, isFound, holds⟩
    simp only [Bool.and_eq_true, beq_iff_eq] at holds
    rw [← eq_of_sameTerm once isLeaf isFound holds.1, holds.2]
  · intro positive
    exact ⟨leaf, isLeaf, by simp [positive]⟩

/-- Clauses of leaves, each term in one sense only, have the clause of every literal that follows
from them. -/
theorem mem_of_entailed_once (once : (leaves.map Literal.term).Nodup)
    (within : GroupsOver (· ∈ leaves) clauses) (distinct : ∀ clause ∈ clauses, clause.Nodup)
    (satisfiable : ∃ valuation, groupsHold .conjunctive valuation clauses = true)
    (entailed : ∀ valuation, groupsHold .conjunctive valuation clauses = true →
      literal.holds valuation = true) : [literal] ∈ clauses := by
  have nonempty : [] ∉ clauses := by
    intro empty
    obtain ⟨valuation, truth⟩ := satisfiable
    cases List.all_eq_true.mp truth [] empty
  have notAll : ¬ groupsHold .conjunctive (against leaves literal) clauses = true := by
    intro truth
    have holds := entailed _ truth
    rw [holds_against_self] at holds
    cases holds
  rw [groupsHold, List.all_eq_true] at notAll
  simp only [Classical.not_forall] at notAll
  obtain ⟨clause, member, fails⟩ := notAll
  have onlyLiteral : ∀ leaf ∈ clause, leaf = literal := by
    intro leaf inside
    have leafFails : ¬ leaf.holds (against leaves literal) = true :=
      fun holds => fails (List.any_eq_true.mpr ⟨leaf, inside, holds⟩)
    have sameTerm : leaf.term = literal.term := Decidable.byContradiction fun other =>
      leafFails (holds_against once (within clause member leaf inside) other)
    obtain ⟨term, positive⟩ := leaf
    obtain ⟨literalTerm, literalPositive⟩ := literal
    cases sameTerm
    cases positive <;> cases literalPositive <;> simp_all [Literal.holds, against]
  rcases clause with _ | ⟨first, _ | ⟨second, rest⟩⟩
  · exact absurd member nonempty
  · exact onlyLiteral first (List.mem_singleton.mpr rfl) ▸ member
  · have same : first = second :=
      (onlyLiteral first (by simp)).trans (onlyLiteral second (by simp)).symm
    exact absurd (distinct _ member) (by simp [same])

end Entailed

end IsaLogic.Formula
