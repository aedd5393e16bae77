import IsaLogic.Proofs.Formula.Arity
import IsaLogic.Proofs.Formula.Reduced

/-!
# Merging nested connectives, and taking them apart

Flattening leaves no conjunction in a conjunction and no disjunction in a disjunction
(`isMerged_flatten`), and binary form leaves two operands at each (`isPaired_binary`). A proper
formula that is merged already is what flattening makes of it (`flatten_of_isMerged`), so to
flatten twice is to flatten once.

A proper formula keeps its kind when it is flattened (`rank_flatten`): what is spliced in is never
less than what was there. So the levels of a flat form are levels of the formula it comes from,
and a formula whose flattened form is flat is a nested form (`isNested_of_isFlat_flatten`). The
converse needs that the formula has no constants.
-/

namespace IsaLogic.Formula

/-- No operand of a conjunction is a conjunction, and none of a disjunction is a disjunction. -/
def IsMerged : Formula → Prop
  | .conj fs => ∀ gs, .conj gs ∉ fs
  | .disj fs => ∀ gs, .disj gs ∉ fs
  | _ => True

/-- A conjunction and a disjunction have two operands. -/
def IsPaired : Formula → Prop
  | .conj fs | .disj fs => fs.length = 2
  | _ => True

variable {form : TwoLevel} {f : Formula} {fs gs : List Formula} {property : Formula → Prop}

theorem isMerged_outer : (outer form fs).IsMerged ↔ ∀ gs, outer form gs ∉ fs := by
  cases form <;> rfl

theorem outer_inj (same : outer form fs = outer form gs) : fs = gs := by
  cases form <;> cases same <;> rfl

theorem nor_of_several (several : 2 ≤ fs.length) : nor fs = .noneOf fs := by
  match fs with
  | _ :: _ :: _ => rfl

section Throughout

theorem throughout_of_operands (here : property f)
    (operands : ∀ g ∈ f.operands, g.Throughout property) : f.Throughout property :=
  throughout_iff.mpr ⟨here, operands⟩

theorem throughout_oneOf (constant : property falsum) (many : property (.exactlyOne fs))
    (each : ∀ f ∈ fs, f.Throughout property) : (oneOf fs).Throughout property := by
  match fs with
  | [] => exact throughout_of_operands constant nofun
  | [f] => exact each f (List.mem_singleton.mpr rfl)
  | _ :: _ :: _ => exact throughout_of_operands many each

theorem throughout_nor (constant : property verum) (negation : ∀ f, property (.neg f))
    (many : property (.noneOf fs)) (each : ∀ f ∈ fs, f.Throughout property) :
    (nor fs).Throughout property := by
  match fs with
  | [] => exact throughout_of_operands constant nofun
  | [f] => exact throughout_of_operands (negation f) each
  | _ :: _ :: _ => exact throughout_of_operands many each

theorem throughout_pair {g : Formula} (first : f.Throughout property)
    (second : g.Throughout property) : ∀ h ∈ [f, g], h.Throughout property :=
  List.forall_mem_cons.mpr ⟨first, List.forall_mem_singleton.mpr second⟩

end Throughout

section Merging

/-- Splicing merged operands leaves none of the connective they are spliced into. -/
theorem isMerged_joined_spliced (each : ∀ f ∈ fs, f.Throughout IsMerged) :
    (joined form (spliced form fs)).Throughout IsMerged := by
  have members : ∀ g ∈ spliced form fs, g.Throughout IsMerged ∧ ∀ hs, g ≠ outer form hs := by
    intro g member
    rcases of_mem_spliced member with ⟨isOperand, other⟩ | ⟨gs, isOperand, inside⟩
    · exact ⟨each g isOperand, other⟩
    · obtain ⟨merged, operands⟩ := throughout_iff.mp (each _ isOperand)
      rw [operands_outer] at operands
      exact ⟨operands g inside, fun hs same => isMerged_outer.mp merged hs (same ▸ inside)⟩
  generalize spliced form fs = pieces at members
  match pieces with
  | [] => cases form <;> exact throughout_of_operands trivial nofun
  | [g] =>
    rw [joined_singleton]
    exact (members g (List.mem_singleton.mpr rfl)).1
  | g :: h :: rest =>
    rw [joined_of_several (by simp)]
    refine throughout_of_operands (isMerged_outer.mpr fun hs member => ?_) ?_
    · exact (members _ member).2 hs rfl
    · rw [operands_outer]
      exact fun g member => (members g member).1

/-- No connective is left in one of its kind. -/
theorem isMerged_flatten (f : Formula) : f.flatten.Throughout IsMerged := by
  have ofOuter : ∀ (form : TwoLevel) {fs : List Formula},
      (∀ f ∈ fs, f.flatten.Throughout IsMerged) → (outer form fs).flatten.Throughout IsMerged := by
    intro form fs each
    rw [flatten_outer]
    exact isMerged_joined_spliced (List.forall_mem_map.mpr each)
  induction f using Formula.induct with
  | constant value => exact throughout_of_operands trivial nofun
  | atom term => exact throughout_of_operands trivial nofun
  | neg f ih => exact throughout_of_operands trivial (List.forall_mem_singleton.mpr ih)
  | conj fs ih => exact ofOuter .conjunctive ih
  | disj fs ih => exact ofOuter .disjunctive ih
  | exactlyOne fs ih =>
    rw [flatten_exactlyOne]
    exact throughout_oneOf trivial trivial (List.forall_mem_map.mpr ih)
  | noneOf fs ih =>
    rw [flatten_noneOf]
    exact throughout_nor trivial (fun _ => trivial) trivial (List.forall_mem_map.mpr ih)
  | implies a b ihA ihB => exact throughout_of_operands trivial (throughout_pair ihA ihB)

/-- Where nothing is nested and nothing collapses, flattening changes nothing. -/
theorem flatten_of_isMerged (proper : f.isProper = true) (merged : f.Throughout IsMerged) :
    f.flatten = f := by
  have same : ∀ {fs : List Formula}, (∀ f ∈ fs, f.flatten = f) → fs.map flatten = fs :=
    fun each => (List.map_congr_left each).trans (List.map_id _)
  have ofOuter : ∀ (form : TwoLevel) {fs : List Formula}, (outer form fs).isProper = true →
      (outer form fs).IsMerged → (∀ f ∈ fs, f.flatten = f) →
      (outer form fs).flatten = outer form fs := by
    intro form fs proper merged each
    rw [flatten_outer, same each, spliced_of_not_mem (isMerged_outer.mp merged),
      joined_of_several (isProper_outer.mp proper).1]
  induction f using induct_operands with
  | step f ih =>
    obtain ⟨here, operands⟩ := throughout_iff.mp merged
    have each : ∀ g ∈ f.operands, g.flatten = g := fun g member =>
      ih g member (hereditary_isProper.operands proper g member) (operands g member)
    cases f with
    | constant value => rfl
    | atom term => rfl
    | neg f => exact congrArg neg (each f (List.mem_singleton.mpr rfl))
    | conj fs => exact ofOuter .conjunctive proper here each
    | disj fs => exact ofOuter .disjunctive proper here each
    | exactlyOne fs =>
      have kept : fs.map flatten = fs := same each
      rw [flatten_exactlyOne, kept, oneOf_of_several (isProper_exactlyOne.mp proper).1]
    | noneOf fs =>
      have kept : fs.map flatten = fs := same each
      rw [flatten_noneOf, kept, nor_of_several (isProper_noneOf.mp proper).1]
    | implies a b =>
      exact congrArg₂ implies (each a (List.mem_cons_self ..))
        (each b (List.mem_cons_of_mem a (List.mem_singleton.mpr rfl)))

/-- To flatten a proper formula twice is to flatten it once. -/
theorem flatten_flatten (proper : f.isProper = true) : f.flatten.flatten = f.flatten :=
  flatten_of_isMerged (hereditary_isProper.flatten proper) (isMerged_flatten f)

end Merging

section Pairing

/-- Binary form leaves two operands at every conjunction and disjunction. -/
theorem isPaired_binary (f : Formula) : f.binary.Throughout IsPaired := by
  induction f using Formula.induct with
  | constant value => exact throughout_of_operands trivial nofun
  | atom term => exact throughout_of_operands trivial nofun
  | neg f ih => exact throughout_of_operands trivial (List.forall_mem_singleton.mpr ih)
  | conj fs ih =>
    rw [binary_conj]
    refine chain_induction (motive := Throughout IsPaired) ?_ ?_ (List.forall_mem_map.mpr ih)
    · exact throughout_of_operands trivial nofun
    · exact fun f g first second => throughout_of_operands rfl (throughout_pair first second)
  | disj fs ih =>
    rw [binary_disj]
    refine chain_induction (motive := Throughout IsPaired) ?_ ?_ (List.forall_mem_map.mpr ih)
    · exact throughout_of_operands trivial nofun
    · exact fun f g first second => throughout_of_operands rfl (throughout_pair first second)
  | exactlyOne fs ih =>
    rw [binary_exactlyOne]
    exact throughout_oneOf trivial trivial (List.forall_mem_map.mpr ih)
  | noneOf fs ih =>
    rw [binary_noneOf]
    exact throughout_nor trivial (fun _ => trivial) trivial (List.forall_mem_map.mpr ih)
  | implies a b ihA ihB => exact throughout_of_operands trivial (throughout_pair ihA ihB)

end Pairing

section Kinds

/-- Splicing proper operands never leaves fewer than there were. -/
theorem length_le_spliced (form : TwoLevel) (each : ∀ f ∈ fs, f.isProper = true) :
    fs.length ≤ (spliced form fs).length := by
  induction fs with
  | nil => exact Nat.zero_le _
  | cons f fs ih =>
    obtain ⟨proper, later⟩ := List.forall_mem_cons.mp each
    have pieces : ∃ pieces, spliced form (f :: fs) = pieces ++ spliced form fs ∧
        1 ≤ pieces.length := by
      cases form with
      | conjunctive =>
        refine ⟨_, spliceConj_cons f fs, ?_⟩
        cases f with
        | conj gs => exact (isProper_conj.mp proper).1.le
        | _ => exact Nat.le_refl 1
      | disjunctive =>
        refine ⟨_, spliceDisj_cons f fs, ?_⟩
        cases f with
        | disj gs => exact (isProper_disj.mp proper).1.le
        | _ => exact Nat.le_refl 1
    obtain ⟨pieces, isSpliced, some⟩ := pieces
    have rest := ih later
    rw [isSpliced, List.length_append, List.length_cons]
    omega

theorem flatten_outer_of_isProper (proper : (outer form fs).isProper = true) :
    (outer form fs).flatten = outer form (spliced form (fs.map flatten)) := by
  obtain ⟨several, each⟩ := isProper_outer.mp proper
  have flattened : ∀ f ∈ fs.map flatten, f.isProper = true :=
    List.forall_mem_map.mpr fun f member => hereditary_isProper.flatten (each f member)
  have notFewer := length_le_spliced form flattened
  rw [List.length_map] at notFewer
  rw [flatten_outer, joined_of_several (by omega)]

/-- A proper formula keeps its kind when it is flattened. -/
theorem rank_flatten (proper : f.isProper = true) : f.flatten.rank = f.rank := by
  have ofOuter : ∀ (form : TwoLevel) {fs : List Formula}, (outer form fs).isProper = true →
      (outer form fs).flatten.rank = (outer form fs).rank := by
    intro form fs proper
    rw [flatten_outer_of_isProper proper]
    cases form <;> rfl
  cases f with
  | constant value => rfl
  | atom term => rfl
  | neg f => rfl
  | implies a b => rfl
  | conj fs => exact ofOuter .conjunctive proper
  | disj fs => exact ofOuter .disjunctive proper
  | exactlyOne fs =>
    have several := (isProper_exactlyOne.mp proper).1
    rw [flatten_exactlyOne, oneOf_of_several (by rwa [List.length_map])]
    rfl
  | noneOf fs =>
    have several := (isProper_noneOf.mp proper).1
    rw [flatten_noneOf, nor_of_several (by rwa [List.length_map])]
    rfl

theorem exists_outer_of_rank (same : f.rank = (outer form gs).rank) : ∃ fs, f = outer form fs := by
  cases form <;> rcases f with (_ | _) | _ | _ | _ | _ | _ | _ | _ <;>
    first | exact ⟨_, rfl⟩ | cases same

theorem isConstant_iff_rank : f.isConstant = true ↔ f.rank ≤ 1 := by
  rcases f with (_ | _) | _ | _ | _ | _ | _ | _ | _ <;> simp [isConstant, rank]

theorem isLiteral_iff_rank :
    f.isLiteral = true ↔ f.rank = 2 ∨ ∃ g, f = .neg g ∧ g.rank = 2 := by
  rcases f with (_ | _) | _ | ((_ | _) | _ | _ | _ | _ | _ | _ | _) | _ | _ | _ | _ | _ <;>
    simp [isLiteral, literal?, rank]

/-- Only a literal is flattened to one. -/
theorem isLiteral_of_flatten (proper : f.isProper = true) (literal : f.flatten.isLiteral = true) :
    f.isLiteral = true := by
  have kind := rank_flatten proper
  rcases isLiteral_iff_rank.mp literal with single | ⟨g, isNeg, single⟩
  · exact isLiteral_iff_rank.mpr (.inl (kind ▸ single))
  · rw [isNeg] at kind
    obtain ⟨operand, rfl⟩ : ∃ operand, f = .neg operand := by
      rcases f with (_ | _) | _ | _ | _ | _ | _ | _ | _ <;> first | exact ⟨_, rfl⟩ | cases kind
    have same : operand.flatten = g := neg.inj isNeg
    have kept : operand.flatten.rank = operand.rank := rank_flatten proper
    exact isLiteral_iff_rank.mpr (.inr ⟨operand, rfl, kept ▸ same ▸ single⟩)

end Kinds

section Nested

theorem isNestedGroup_inner : (outer form.dual fs).isNestedGroup form = true ↔
    ∀ f ∈ fs, f.isNestedGroup form = true := by
  cases form <;> simp [outer, TwoLevel.dual, isNestedGroup, areNestedGroups_iff]

theorem isNested_outer :
    (outer form fs).isNested form = true ↔ ∀ f ∈ fs, f.isNested form = true := by
  cases form <;> simp [outer, isNested, areNested_iff]

theorem isNestedGroup_of_isLiteral (literal : f.isLiteral = true) :
    f.isNestedGroup form = true := by
  obtain ⟨⟨term, positive⟩, is⟩ := Option.isSome_iff_exists.mp literal
  rw [eq_toFormula_of_literal? is]
  cases positive <;> rfl

theorem isNested_of_isNestedGroup (nested : f.isNestedGroup form = true) :
    f.isNested form = true := by
  cases f with
  | constant value => cases form <;> rfl
  | conj fs => cases form <;> simp_all [isNested, isNestedGroup]
  | disj fs => cases form <;> simp_all [isNested, isNestedGroup]
  | atom term | neg f | exactlyOne fs | noneOf fs | implies a b => exact nested

/-- The operands of what is flattened to a connective over pieces are flattened to a piece each,
or to the connective over some of the pieces. -/
theorem flatten_of_mem {piece : Formula → Prop} (proper : (outer form fs).isProper = true)
    (flattened : (outer form fs).flatten = outer form gs) (pieces : ∀ g ∈ gs, piece g) :
    ∀ f ∈ fs, piece f.flatten ∨ ∃ hs, f.flatten = outer form hs ∧ ∀ h ∈ hs, piece h := by
  rw [flatten_outer_of_isProper proper] at flattened
  obtain rfl := outer_inj flattened
  intro f member
  rcases spliced_of_mem form (List.mem_map_of_mem member) with here | ⟨hs, isOuter, inside⟩
  · exact .inl (pieces _ here)
  · exact .inr ⟨hs, isOuter, fun h isOperand => pieces h (inside h isOperand)⟩

theorem isNestedGroup_of_flatten (proper : f.isProper = true)
    (flat : f.flatten.isFlatGroup form = true) : f.isNestedGroup form = true := by
  induction f using induct_operands with
  | step f ih =>
    rcases isFlatGroup_iff.mp flat with literal | ⟨gs, isInner, literals⟩
    · exact isNestedGroup_of_isLiteral (isLiteral_of_flatten proper literal)
    · obtain ⟨fs, rfl⟩ :=
        exists_outer_of_rank ((rank_flatten proper).symm.trans (congrArg rank isInner))
      rw [isNestedGroup_inner]
      intro f member
      have isOperand : f ∈ (outer form.dual fs).operands := by rwa [operands_outer]
      refine ih f isOperand (hereditary_isProper.operands proper f isOperand) ?_
      exact isFlatGroup_iff.mpr (flatten_of_mem proper isInner literals f member)

/-- A proper formula that is flat once it is flattened is a nested form. -/
theorem isNested_of_isFlat_flatten (proper : f.isProper = true)
    (flat : f.flatten.isFlat form = true) : f.isNested form = true := by
  induction f using induct_operands with
  | step f ih =>
    rcases isFlat_iff.mp flat with constant | group | ⟨gs, isOuter, groups⟩
    · rw [isConstant_iff_rank, rank_flatten proper, ← isConstant_iff_rank] at constant
      cases f with
      | constant value => cases form <;> rfl
      | _ => cases constant
    · exact isNested_of_isNestedGroup (isNestedGroup_of_flatten proper group)
    · obtain ⟨fs, rfl⟩ :=
        exists_outer_of_rank ((rank_flatten proper).symm.trans (congrArg rank isOuter))
      rw [isNested_outer]
      intro f member
      have isOperand : f ∈ (outer form fs).operands := by rwa [operands_outer]
      refine ih f isOperand (hereditary_isProper.operands proper f isOperand) ?_
      exact isFlat_iff.mpr (.inr (flatten_of_mem proper isOuter groups f member))

/-- Without constants, no connective of a proper formula is over nothing. -/
theorem not_hasConstant (proper : f.isProper = true)
    (plain : f.Throughout fun part => part.isConstant = false) : ¬ f.HasConstant := by
  rintro ⟨part, within, empty, notTerm⟩
  have arity := isProper_iff.mp proper part within
  cases part with
  | constant value => cases plain _ within
  | atom term => exact notTerm term rfl
  | neg f | implies a b => cases empty
  | conj fs | disj fs | exactlyOne fs | noneOf fs =>
    obtain rfl : fs = [] := empty
    cases arity

end Nested

/-- Merging and taking apart are exact on every proper formula: neither changes a truth value;
flattening leaves no connective in one of its kind and changes nothing the second time; binary form
leaves two operands at every conjunction and disjunction; and a formula without constants is flat
once it is flattened exactly if it is a nested form. -/
theorem regrouping_exact {f : Formula} (proper : f.isProper = true) :
    f.flatten.Equivalent f ∧ f.binary.Equivalent f ∧
      f.flatten.Throughout IsMerged ∧ f.flatten.flatten = f.flatten ∧
      f.binary.Throughout IsPaired ∧
      ((f.Throughout fun part => part.isConstant = false) →
        ∀ form, f.flatten.isFlat form = true ↔ f.isNested form = true) := by
  refine ⟨fun valuation => holds_flatten valuation f, fun valuation => holds_binary valuation f,
    isMerged_flatten f, flatten_flatten proper, isPaired_binary f, fun plain form => ?_⟩
  refine ⟨isNested_of_isFlat_flatten proper, fun nested => ?_⟩
  exact isFlat_of_joins (joins_of_isNested nested (not_hasConstant proper plain))

/-- A conjunction within a conjunction, which is a nested form and flat once it is flattened. -/
theorem regrouping_exact_widths :
    (conj [.conj [narrow, .atom (.xlen .rv64)], narrow]).isProper = true ∧
      ((conj [.conj [narrow, .atom (.xlen .rv64)], narrow]).Throughout
        fun part => part.isConstant = false) ∧
      ((conj [.conj [narrow, .atom (.xlen .rv64)], narrow]).flatten.isFlat .conjunctive = true ↔
        (conj [.conj [narrow, .atom (.xlen .rv64)], narrow]).isNested .conjunctive = true) := by
  have leaf : ∀ term, (atom term).Throughout fun part => part.isConstant = false :=
    fun term => throughout_of_operands rfl nofun
  have plain : (conj [.conj [narrow, .atom (.xlen .rv64)], narrow]).Throughout
      fun part => part.isConstant = false := by
    refine throughout_of_operands rfl (throughout_pair ?_ (leaf _))
    exact throughout_of_operands rfl (throughout_pair (leaf _) (leaf _))
  exact ⟨rfl, plain, (regrouping_exact rfl).2.2.2.2.2 plain .conjunctive⟩

end IsaLogic.Formula
