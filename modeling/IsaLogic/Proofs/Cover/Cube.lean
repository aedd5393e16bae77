import IsaLogic.Cover.Cube
import IsaLogic.Proofs.Formula.TwoLevel

/-!
# Covers and the formulas they describe

The cubes of a cover stand for a set of points (`Cube.Union`). A cover describes a
formula in a two-level form if its points are those at which the formula is true, or
false for the conjunctive form (`Describes`). The two-level formula of such a cover
is equivalent to the formula, whatever way the cover was found, so each way has to
be shown to describe the formula only.
-/

namespace IsaLogic

/-- The truth value of a formula at the points that its two-level form covers. -/
def TwoLevel.covered : TwoLevel → Bool
  | .conjunctive => false
  | .disjunctive => true

namespace Cube

/-- The point lies in some cube of the cover. -/
def Union (cover : List Cube) (point : List Bool) : Prop :=
  ∃ cube ∈ cover, cube.covers point = true

instance (cover : List Cube) (point : List Bool) : Decidable (Union cover point) :=
  inferInstanceAs (Decidable (∃ cube ∈ cover, cube.covers point = true))

/-- Every cube has one entry for each of the inputs. -/
def OfWidth (width : Nat) (cover : List Cube) : Prop :=
  ∀ cube ∈ cover, cube.length = width

instance (width : Nat) (cover : List Cube) : Decidable (OfWidth width cover) :=
  inferInstanceAs (Decidable (∀ cube ∈ cover, cube.length = width))

/-- Two covers of the same points of a width. -/
def SamePoints (width : Nat) (cover other : List Cube) : Prop :=
  ∀ point : List Bool, point.length = width → (Union cover point ↔ Union other point)

@[simp] theorem covers_nil (point : List Bool) : covers [] point = true := rfl

@[simp] theorem covers_nil_right (cube : Cube) : cube.covers [] = true := by simp [covers]

@[simp] theorem covers_cons (entry : Option Bool) (cube : Cube) (value : Bool)
    (point : List Bool) :
    covers (entry :: cube) (value :: point) = (entry.all (· == value) && cube.covers point) := by
  simp [covers]

theorem covers_map {α : Type} (entry : α → Option Bool) (value : α → Bool) (inputs : List α) :
    covers (inputs.map entry) (inputs.map value) = true ↔
      ∀ input ∈ inputs, (entry input).all (· == value input) = true := by
  induction inputs with
  | nil => simp
  | cons input inputs ih => simp [ih]

section Literals

variable (terms : List Term) (valuation : Term → Bool)

theorem toLiterals_complement (cube : Cube) :
    toLiterals terms true cube = (toLiterals terms false cube).map Literal.negated := by
  unfold toLiterals
  rw [List.map_filterMap]
  congr 1
  funext ⟨entry, term⟩
  cases entry <;> simp [Literal.negated]

theorem all_toLiterals (cube : Cube) :
    (toLiterals terms false cube).all (Literal.holds valuation) =
      cube.covers (terms.map valuation) := by
  induction cube generalizing terms with
  | nil => rfl
  | cons entry cube ih =>
    cases terms with
    | nil => simp [toLiterals]
    | cons term terms =>
      have rest := ih terms
      cases entry with
      | none => simpa [toLiterals] using rest
      | some value =>
        have here : (valuation term == value) = (value == valuation term) := Bool.beq_comm
        simpa [toLiterals, Literal.holds, here] using congrArg _ rest

/-- The cubes of a cover are the groups of its formula, the complements of their literals in
conjunctive form. -/
theorem coverFormula_eq (terms : List Term) (form : TwoLevel) (cubes : List Cube) :
    coverFormula terms form cubes =
      Formula.ofGroups form (cubes.map (toLiterals terms (form = .conjunctive))) := by
  cases form <;> rfl

/-- The two-level formula of a cover has the covered truth value at the points of the cover. -/
theorem holds_coverFormula (form : TwoLevel) (cubes : List Cube) :
    (coverFormula terms form cubes).holds valuation = form.covered ↔
      Union cubes (terms.map valuation) := by
  have products : Formula.groupsHold .disjunctive valuation
      (cubes.map (toLiterals terms false)) = true ↔ Union cubes (terms.map valuation) := by
    simp [Formula.groupsHold, all_toLiterals, Union]
  rw [← products]
  cases form with
  | disjunctive =>
    have means := Formula.holds_ofGroups .disjunctive valuation
      (cubes.map (toLiterals terms false))
    rw [← means]
    rfl
  | conjunctive =>
    have complemented : cubes.map (toLiterals terms true) =
        (cubes.map (toLiterals terms false)).map (List.map Literal.negated) := by
      simp [toLiterals_complement]
    have means := Formula.holds_ofGroups .conjunctive valuation
      (cubes.map (toLiterals terms true))
    rw [complemented, Formula.groupsHold_negated, ← complemented] at means
    change (Formula.ofGroups .conjunctive _).holds valuation = false ↔ _
    rw [means, Bool.not_eq_eq_eq_not]
    rfl

/-- The cube of a group without opposite literals covers the points where all of them hold. -/
theorem covers_ofLiterals {group : List Literal} (consistent : Formula.isContradictory group = false)
    (mentioned : ∀ literal ∈ group, literal.term ∈ terms) :
    (ofLiterals terms group).covers (terms.map valuation) = group.all (Literal.holds valuation) := by
  rw [Bool.eq_iff_iff, ofLiterals, covers_map, List.all_eq_true]
  constructor
  · intro agrees literal member
    have entry := agrees literal.term (mentioned literal member)
    cases found : group.reverse.find? fun other => other.term == literal.term with
    | none =>
      have differs := List.find?_eq_none.mp found literal (List.mem_reverse.mpr member)
      exact absurd (beq_self_eq_true _) differs
    | some other =>
      have sameTerm : other.term = literal.term := by simpa using List.find?_some found
      have isOther : other ∈ group := List.mem_reverse.mp (List.mem_of_find?_eq_some found)
      cases Formula.eq_of_not_isContradictory consistent member isOther sameTerm
      rw [found] at entry
      have value : literal.positive = valuation literal.term := by simpa using entry
      simp [Literal.holds, value]
  · intro holds term _
    cases found : group.reverse.find? fun other => other.term == term with
    | none => rfl
    | some other =>
      have sameTerm : other.term = term := by simpa using List.find?_some found
      have truth := holds other (List.mem_reverse.mp (List.mem_of_find?_eq_some found))
      have value : valuation term = other.positive := by simpa [Literal.holds, sameTerm] using truth
      simp [value]

end Literals

end Cube

/-- Cubes over the terms of a formula that cover the points at which it has the truth value
that its two-level form covers. -/
structure Describes (form : TwoLevel) (f : Formula) (cubes : List Cube) : Prop where
  width : Cube.OfWidth f.terms.length cubes
  points : ∀ valuation : Term → Bool,
    Cube.Union cubes (f.terms.map valuation) ↔ f.holds valuation = form.covered

namespace Describes

variable {form : TwoLevel} {f : Formula} {cubes : List Cube}

/-- The two-level formula of a cover that describes a formula is equivalent to it. -/
theorem equivalent (describes : Describes form f cubes) :
    (coverFormula f.terms form cubes).Equivalent f := by
  intro valuation
  have same := (Cube.holds_coverFormula f.terms valuation form cubes).trans
    (describes.points valuation)
  cases atCover : (coverFormula f.terms form cubes).holds valuation <;>
    cases atFormula : f.holds valuation <;> cases form <;> simp_all [TwoLevel.covered]

/-- Another cover of the same points describes the formula as well. -/
theorem samePoints (describes : Describes form f cubes) {others : List Cube}
    (width : Cube.OfWidth f.terms.length others)
    (same : Cube.SamePoints f.terms.length cubes others) : Describes form f others where
  width := width
  points valuation := by
    rw [← same _ (List.length_map _)]
    exact describes.points valuation

/-- The cubes of the groups that spell a formula, or its negation for the conjunctive form. -/
theorem ofGroups {target : Formula} {groups : List (List Literal)}
    (spells : Formula.Spells .disjunctive target groups)
    (consistent : ∀ group ∈ groups, Formula.isContradictory group = false)
    (terms : target.occurrences = f.occurrences)
    (truth : ∀ valuation, target.holds valuation = true ↔ f.holds valuation = form.covered) :
    Describes form f (groups.map (Cube.ofLiterals f.terms)) where
  width := by
    intro cube member
    obtain ⟨group, _, rfl⟩ := List.mem_map.mp member
    exact List.length_map _
  points valuation := by
    have covers : ∀ group ∈ groups, (Cube.ofLiterals f.terms group).covers (f.terms.map valuation) =
        group.all (Literal.holds valuation) := by
      intro group member
      refine Cube.covers_ofLiterals f.terms valuation (consistent group member) ?_
      intro literal inside
      rw [Formula.mem_terms, ← terms]
      exact spells.terms group member literal inside
    rw [← truth, ← spells.truth, Formula.groupsHold, List.any_eq_true]
    constructor
    · rintro ⟨_, member, covered⟩
      obtain ⟨group, isGroup, rfl⟩ := List.mem_map.mp member
      exact ⟨group, isGroup, covers group isGroup ▸ covered⟩
    · rintro ⟨group, isGroup, holds⟩
      exact ⟨_, List.mem_map_of_mem isGroup, (covers group isGroup).trans holds⟩

end Describes

end IsaLogic
