import IsaLogic.Proofs.Formula.Fingerprint
import IsaLogic.Proofs.Formula.ReadOnce

/-!
# Flattening nested forms

A formula that has a two-level form up to nested connectives is flat once they are merged,
if all of its leaves are terms: merging takes the pieces of a level out of the nested
connectives and joins them again (`Joins.flatten`). A constant is no piece of a flat form, and
merging does not remove it, nor the constant that a connective of nothing collapses to
(`exists_within_flatten`). So a flattened formula with some term is flat exactly if the
formula has no constant (`isFlat_flatten_iff`).
-/

namespace IsaLogic.Formula

/-- Some part without operands is no term: a constant, or a connective of nothing. -/
def HasConstant (f : Formula) : Prop :=
  ∃ part, Within part f ∧ part.operands = [] ∧ ∀ term, part ≠ .atom term

/-- The formula and all of its parts have the property. -/
def Throughout (property : Formula → Prop) (f : Formula) : Prop :=
  ∀ part, Within part f → property part

/-- A piece, or the outer connective of a form over some pieces. -/
def Joins (form : TwoLevel) (piece : Formula → Prop) (f : Formula) : Prop :=
  piece f ∨ ∃ fs, fs ≠ [] ∧ f = outer form fs ∧ ∀ g ∈ fs, piece g

/-- Operands, with those of nested outer connectives in their place. -/
def spliced : TwoLevel → List Formula → List Formula
  | .conjunctive => spliceConj
  | .disjunctive => spliceDisj

/-- The collapsing constructor of the outer connective of a form. -/
def joined : TwoLevel → List Formula → Formula
  | .conjunctive => allOf
  | .disjunctive => anyOf

variable {form : TwoLevel} {f g : Formula} {fs : List Formula}

theorem throughout_iff {property : Formula → Prop} :
    f.Throughout property ↔ property f ∧ ∀ g ∈ f.operands, g.Throughout property := by
  constructor
  · intro all
    exact ⟨all f (.self f), fun g member part within => all part (.operand member within)⟩
  · rintro ⟨here, operands⟩ part within
    cases within with
    | self => exact here
    | operand member inside => exact operands _ member part inside

theorem flatten_outer (form : TwoLevel) (fs : List Formula) :
    (outer form fs).flatten = joined form (spliced form (fs.map flatten)) := by
  cases form with
  | conjunctive => exact flatten_conj fs
  | disjunctive => exact flatten_disj fs

theorem operands_outer (form : TwoLevel) (fs : List Formula) : (outer form fs).operands = fs := by
  cases form <;> rfl

/-- An operand is spliced as it is, or all of its own operands are. -/
theorem spliced_of_mem (form : TwoLevel) (member : f ∈ fs) :
    f ∈ spliced form fs ∨ ∃ gs, f = outer form gs ∧ ∀ g ∈ gs, g ∈ spliced form fs := by
  cases form with
  | conjunctive =>
    cases f with
    | conj gs => exact .inr ⟨gs, rfl, fun g inside => List.mem_flatMap.mpr ⟨_, member, inside⟩⟩
    | _ => exact .inl (List.mem_flatMap.mpr ⟨_, member, List.mem_singleton.mpr rfl⟩)
  | disjunctive =>
    cases f with
    | disj gs => exact .inr ⟨gs, rfl, fun g inside => List.mem_flatMap.mpr ⟨_, member, inside⟩⟩
    | _ => exact .inl (List.mem_flatMap.mpr ⟨_, member, List.mem_singleton.mpr rfl⟩)

/-- What is spliced is an operand of another connective, or one of an operand of this one. -/
theorem of_mem_spliced (member : f ∈ spliced form fs) :
    (f ∈ fs ∧ ∀ gs, f ≠ outer form gs) ∨ ∃ gs, outer form gs ∈ fs ∧ f ∈ gs := by
  cases form with
  | conjunctive =>
    obtain ⟨g, isOperand, inside⟩ := List.mem_flatMap.mp member
    cases g with
    | conj gs => exact .inr ⟨gs, isOperand, inside⟩
    | _ =>
      cases List.mem_singleton.mp inside
      exact .inl ⟨isOperand, nofun⟩
  | disjunctive =>
    obtain ⟨g, isOperand, inside⟩ := List.mem_flatMap.mp member
    cases g with
    | disj gs => exact .inr ⟨gs, isOperand, inside⟩
    | _ =>
      cases List.mem_singleton.mp inside
      exact .inl ⟨isOperand, nofun⟩

section Joins

variable {piece : Formula → Prop}

/-- Splicing takes the pieces out of the operands. -/
theorem piece_of_mem_spliced (noPiece : ∀ gs, ¬ piece (outer form gs))
    (each : ∀ f ∈ fs, Joins form piece f) : ∀ f ∈ spliced form fs, piece f := by
  intro f member
  rcases of_mem_spliced member with ⟨isOperand, other⟩ | ⟨gs, isOperand, inside⟩
  · rcases each f isOperand with isPiece | ⟨gs, _, isOuter, _⟩
    · exact isPiece
    · exact absurd isOuter (other gs)
  · rcases each _ isOperand with isPiece | ⟨others, _, same, pieces⟩
    · exact absurd isPiece (noPiece gs)
    · cases form <;> cases same <;> exact pieces f inside

theorem spliced_ne_nil (some : fs ≠ []) (noPiece : ∀ gs, ¬ piece (outer form gs))
    (each : ∀ f ∈ fs, Joins form piece f) : spliced form fs ≠ [] := by
  obtain ⟨f, member⟩ := List.exists_mem_of_ne_nil fs some
  rcases spliced_of_mem form member with isSpliced | ⟨gs, rfl, inside⟩
  · exact List.ne_nil_of_mem isSpliced
  · rcases each _ member with isPiece | ⟨others, notNone, same, _⟩
    · exact absurd isPiece (noPiece gs)
    · obtain ⟨g, isOther⟩ := List.exists_mem_of_ne_nil others notNone
      have isInside : g ∈ gs := by cases form <;> cases same <;> exact isOther
      exact List.ne_nil_of_mem (inside g isInside)

theorem joins_joined (some : fs ≠ []) (pieces : ∀ f ∈ fs, piece f) :
    Joins form piece (joined form fs) := by
  rcases fs with _ | ⟨f, _ | ⟨g, rest⟩⟩
  · exact absurd rfl some
  · cases form <;> exact .inl (pieces f (List.mem_singleton.mpr rfl))
  · cases form <;> exact .inr ⟨f :: g :: rest, some, rfl, pieces⟩

/-- Merging keeps a level over pieces that are not of its connective. -/
theorem Joins.flatten (some : fs ≠ []) (noPiece : ∀ gs, ¬ piece (outer form gs))
    (each : ∀ f ∈ fs, Joins form piece f.flatten) : Joins form piece (outer form fs).flatten := by
  rw [flatten_outer]
  have operands : ∀ f ∈ fs.map Formula.flatten, Joins form piece f := List.forall_mem_map.mpr each
  have notNone := spliced_ne_nil (by simpa using some) noPiece operands
  exact joins_joined notNone (piece_of_mem_spliced noPiece operands)

end Joins

section Constants

theorem hasConstant_outer :
    (outer form fs).HasConstant ↔ fs = [] ∨ ∃ f ∈ fs, f.HasConstant := by
  constructor
  · rintro ⟨part, within, empty, notTerm⟩
    cases within with
    | self => exact .inl (operands_outer form fs ▸ empty)
    | operand member inside =>
      exact .inr ⟨_, operands_outer form fs ▸ member, part, inside, empty, notTerm⟩
  · rintro (rfl | ⟨f, member, part, within, empty, notTerm⟩)
    · cases form <;> exact ⟨_, .self _, rfl, nofun⟩
    · refine ⟨part, .operand ?_ within, empty, notTerm⟩
      rwa [operands_outer]

/-- Merging keeps a level of a formula that has no constant. -/
theorem joins_flatten_outer {piece : Formula → Prop} (noPiece : ∀ gs, ¬ piece (outer form gs))
    (plain : ¬ (outer form fs).HasConstant)
    (each : ∀ f ∈ fs, ¬ f.HasConstant → Joins form piece f.flatten) :
    Joins form piece (outer form fs).flatten := by
  obtain ⟨some, plainOperands⟩ := not_or.mp (mt hasConstant_outer.mpr plain)
  refine Joins.flatten some noPiece fun f member => ?_
  exact each f member fun has => plainOperands ⟨f, member, has⟩

theorem within_outer {value : Bool} :
    Within (.constant value) (outer form fs) ↔ ∃ f ∈ fs, Within (.constant value) f := by
  constructor
  · intro within
    cases form <;> cases within with
    | operand member inside => exact ⟨_, member, inside⟩
  · rintro ⟨f, member, inside⟩
    refine .operand ?_ inside
    rwa [operands_outer]

theorem within_joined {value : Bool} (member : f ∈ fs) (within : Within (.constant value) f) :
    Within (.constant value) (joined form fs) := by
  rcases fs with _ | ⟨first, _ | ⟨second, rest⟩⟩
  · cases member
  · cases List.mem_singleton.mp member
    cases form <;> exact within
  · have whole : Within (.constant value) (outer form (first :: second :: rest)) :=
      within_outer.mpr ⟨f, member, within⟩
    cases form <;> exact whole

/-- Merging leaves a constant inside. -/
theorem within_joined_spliced {value : Bool} (form : TwoLevel) (member : f ∈ fs)
    (within : Within (.constant value) f) :
    Within (.constant value) (joined form (spliced form fs)) := by
  rcases spliced_of_mem form member with isSpliced | ⟨gs, rfl, operands⟩
  · exact within_joined isSpliced within
  · obtain ⟨g, isOperand, inside⟩ := within_outer.mp within
    exact within_joined (operands g isOperand) inside

/-- The constants of a formula in negation normal form are inside of the flattened one. -/
theorem exists_within_flatten (shape : f.IsNnf) (has : f.HasConstant) :
    ∃ value, Within (.constant value) f.flatten := by
  have operands : ∀ (form : TwoLevel) {fs : List Formula}, (outer form fs).HasConstant →
      (∀ f ∈ fs, f.HasConstant → ∃ value, Within (.constant value) f.flatten) →
      ∃ value, Within (.constant value) (outer form fs).flatten := by
    intro form fs has each
    rw [flatten_outer]
    rcases hasConstant_outer.mp has with rfl | ⟨f, member, inside⟩
    · cases form <;> exact ⟨_, .self _⟩
    · obtain ⟨value, within⟩ := each f member inside
      exact ⟨value, within_joined_spliced form (List.mem_map_of_mem member) within⟩
  induction shape with
  | constant value => exact ⟨value, .self _⟩
  | atom term =>
    obtain ⟨part, within, _, notTerm⟩ := has
    cases within with
    | self => exact absurd rfl (notTerm term)
    | operand member _ => cases member
  | negAtom term =>
    obtain ⟨part, within, empty, notTerm⟩ := has
    cases within with
    | self => cases empty
    | operand member inside =>
      cases List.mem_singleton.mp member
      cases inside with
      | self => exact absurd rfl (notTerm term)
      | operand member _ => cases member
  | conj _ ih => exact operands .conjunctive has ih
  | disj _ ih => exact operands .disjunctive has ih

end Constants

section Flat

theorem not_isLiteral_outer (form : TwoLevel) (gs : List Formula) :
    ¬ (outer form gs).isLiteral = true := by
  cases form <;> simp [outer, isLiteral, literal?]

theorem not_isFlatGroup_outer (form : TwoLevel) (gs : List Formula) :
    ¬ (outer form gs).isFlatGroup form = true := by
  cases form <;> simp [outer, isFlatGroup, isLiteral, literal?]

/-- A group is a literal, or the inner connective over literals. -/
theorem isFlatGroup_iff : f.isFlatGroup form = true ↔
    f.isLiteral = true ∨ ∃ fs, f = outer form.dual fs ∧ ∀ g ∈ fs, g.isLiteral = true := by
  constructor
  · intro flat
    refine (Bool.or_eq_true_iff.mp flat).imp_right fun several => ?_
    cases form <;> cases f <;> simp_all [outer, TwoLevel.dual]
  · rintro (literal | ⟨fs, rfl, literals⟩)
    · simp [isFlatGroup, literal]
    · cases form <;> simpa [isFlatGroup, outer, TwoLevel.dual, isLiteral, literal?] using literals

/-- A flat form is a constant, a group, or the outer connective over groups. -/
theorem isFlat_iff : f.isFlat form = true ↔ f.isConstant = true ∨ f.isFlatGroup form = true ∨
    ∃ fs, f = outer form fs ∧ ∀ g ∈ fs, g.isFlatGroup form = true := by
  cases form <;> cases f <;> simp [isFlat, isConstant, outer, isFlatGroup, isLiteral, literal?]

theorem isFlatGroup_of_joins (joins : Joins form.dual (fun g => g.isLiteral = true) f) :
    f.isFlatGroup form = true :=
  isFlatGroup_iff.mpr (joins.imp_right fun ⟨fs, _, isInner, literals⟩ => ⟨fs, isInner, literals⟩)

theorem isFlat_of_joins (joins : Joins form (fun g => g.isFlatGroup form = true) f) :
    f.isFlat form = true :=
  isFlat_iff.mpr (.inr (joins.imp_right fun ⟨fs, _, isOuter, groups⟩ => ⟨fs, isOuter, groups⟩))

theorem joins_of_isNestedGroup (nested : f.isNestedGroup form = true) (plain : ¬ f.HasConstant) :
    Joins form.dual (fun g => g.isLiteral = true) f.flatten := by
  induction f using Formula.induct with
  | atom term => exact .inl rfl
  | neg f =>
    cases f with
    | atom term => exact .inl rfl
    | _ => simp [isNestedGroup] at nested
  | conj fs ih =>
    simp only [isNestedGroup, Bool.and_eq_true, decide_eq_true_eq, areNestedGroups_iff] at nested
    obtain ⟨rfl, nested⟩ := nested
    exact joins_flatten_outer (not_isLiteral_outer .conjunctive) plain
      fun f member => ih f member (nested f member)
  | disj fs ih =>
    simp only [isNestedGroup, Bool.and_eq_true, decide_eq_true_eq, areNestedGroups_iff] at nested
    obtain ⟨rfl, nested⟩ := nested
    exact joins_flatten_outer (not_isLiteral_outer .disjunctive) plain
      fun f member => ih f member (nested f member)
  | constant value | exactlyOne fs | noneOf fs | implies a b => simp [isNestedGroup] at nested

/-- A nested form without constants has two levels over literals once it is flattened. -/
theorem joins_of_isNested (nested : f.isNested form = true) (plain : ¬ f.HasConstant) :
    Joins form (fun g => g.isFlatGroup form = true) f.flatten := by
  have group : ∀ {f : Formula}, f.isNestedGroup form = true → ¬ f.HasConstant →
      Joins form (fun g => g.isFlatGroup form = true) f.flatten :=
    fun nested plain => .inl (isFlatGroup_of_joins (joins_of_isNestedGroup nested plain))
  induction f using Formula.induct with
  | constant value => exact absurd ⟨_, .self _, rfl, nofun⟩ plain
  | conj fs ih =>
    cases form with
    | conjunctive =>
      simp only [isNested, areNested_iff] at nested
      exact joins_flatten_outer (not_isFlatGroup_outer .conjunctive) plain
        fun f member => ih f member (nested f member)
    | disjunctive => exact group (by simpa [isNested, isNestedGroup] using nested) plain
  | disj fs ih =>
    cases form with
    | conjunctive => exact group (by simpa [isNested, isNestedGroup] using nested) plain
    | disjunctive =>
      simp only [isNested, areNested_iff] at nested
      exact joins_flatten_outer (not_isFlatGroup_outer .disjunctive) plain
        fun f member => ih f member (nested f member)
  | atom term | neg f | exactlyOne fs | noneOf fs | implies a b => exact group nested plain

theorem not_within_of_isLiteral (literal : f.isLiteral = true) (value : Bool) :
    ¬ Within (.constant value) f := by
  obtain ⟨⟨term, positive⟩, is⟩ := Option.isSome_iff_exists.mp literal
  obtain rfl := eq_toFormula_of_literal? is
  intro within
  cases positive with
  | true =>
    cases within with
    | operand member _ => cases member
  | false =>
    cases within with
    | operand member inside =>
      cases List.mem_singleton.mp member
      cases inside with
      | operand member _ => cases member

theorem not_within_of_isFlatGroup (flat : f.isFlatGroup form = true) (value : Bool) :
    ¬ Within (.constant value) f := by
  rcases isFlatGroup_iff.mp flat with literal | ⟨fs, rfl, literals⟩
  · exact not_within_of_isLiteral literal value
  · intro within
    obtain ⟨g, member, inside⟩ := within_outer.mp within
    exact not_within_of_isLiteral (literals g member) value inside

/-- No constant is inside of a flat form. -/
theorem not_within_of_isFlat (flat : f.isFlat form = true) (notConstant : f.isConstant = false)
    (value : Bool) : ¬ Within (.constant value) f := by
  rcases isFlat_iff.mp flat with constant | group | ⟨fs, rfl, groups⟩
  · rw [notConstant] at constant
    cases constant
  · exact not_within_of_isFlatGroup group value
  · intro within
    obtain ⟨g, member, inside⟩ := within_outer.mp within
    exact not_within_of_isFlatGroup (groups g member) value inside

/-- A nested form with some term is flat once it is flattened, exactly if it has no constant. -/
theorem isFlat_flatten_iff (nested : f.isNested form = true) (someTerm : f.occurrences ≠ []) :
    f.flatten.isFlat form = true ↔ ¬ f.HasConstant := by
  refine ⟨fun flat has => ?_, fun plain => isFlat_of_joins (joins_of_isNested nested plain)⟩
  obtain ⟨value, within⟩ := exists_within_flatten (isNnf_of_isNested nested) has
  have notConstant : f.flatten.isConstant = false := by
    rw [← occurrences_flatten] at someTerm
    cases isFlattened : f.flatten with
    | constant value => exact absurd (congrArg occurrences isFlattened) someTerm
    | _ => rfl
  exact not_within_of_isFlat flat notConstant value within

end Flat

end IsaLogic.Formula
