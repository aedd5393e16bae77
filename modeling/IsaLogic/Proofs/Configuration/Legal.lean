import IsaLogic.Configuration.Basic
import IsaLogic.Proofs.Database.Exclusion
import IsaLogic.Proofs.Formula.Verdict
import IsaLogic.Proofs.Term.Relation

/-!
# Legal configurations

A full configuration describes a valuation of the terms: those it answers with yes
are true. Once its register width is fixed, it decides every formula without
synthetic variables, and its verdict is the truth value (`verdict_evaluate`).

A legal configuration implements only what the database defines and meets what the
database requires. An expansion asks this of the terms that its formula leads to only
(`Respects`). Everything it derives is then true (`Respects.holds_derived`), one lemma
for each kind of derived formula.
-/

namespace IsaLogic

namespace FullConfig

/-- The valuation a configuration describes. -/
def valuation (config : FullConfig) (term : Term) : Bool := config.evaluate term = .yes

section Evaluation

variable {config : FullConfig}

theorem valuation_iff {term : Term} :
    config.valuation term = true ↔ config.evaluate term = .yes := decide_eq_true_iff

theorem valuation_extension {ext : ExtensionTerm} :
    config.valuation (.extension ext) = true ↔
      ∃ version, lookup? ext.name config.extensions = some version ∧ ext.accepts version = true := by
  rw [valuation_iff, evaluate, fact]
  cases lookup? ext.name config.extensions <;> simp [ExtensionTerm.evaluate]

theorem evaluate_extension_eq_yes {ext : ExtensionTerm} :
    config.evaluate (.extension ext) = .yes ↔
      ∃ version, lookup? ext.name config.extensions = some version ∧ ext.accepts version = true := by
  rw [← valuation_iff, valuation_extension]

theorem evaluate_extension_eq_no {ext : ExtensionTerm} :
    config.evaluate (.extension ext) = .no ↔
      ∀ version, lookup? ext.name config.extensions = some version → ext.accepts version = false := by
  rw [evaluate, fact]
  cases lookup? ext.name config.extensions with
  | none => simp [ExtensionTerm.evaluate]
  | some version =>
    cases accepted : ext.accepts version <;> simp [ExtensionTerm.evaluate, Verdict.ofBool, accepted]

theorem valuation_exact {name : String} {version : Version} :
    config.valuation (.extension (.exact name version)) = true ↔
      lookup? name config.extensions = some version := by
  rw [valuation_extension]
  constructor
  · rintro ⟨implemented, found, accepted⟩
    have same : implemented = version := of_decide_eq_true accepted
    rw [← same]
    exact found
  · intro found
    exact ⟨version, found, decide_eq_true rfl⟩

theorem valuation_parameter {param : ParamTerm} :
    config.valuation (.parameter param) = true ↔
      ∃ value, lookup? param.name config.params = some value ∧ param.evaluate (some value) = .yes := by
  rw [valuation_iff, evaluate]
  cases lookup? param.name config.params <;> simp

theorem valuation_xlen {fixed : Xlen} (isFixed : config.xlen = some fixed) (width : Xlen) :
    config.valuation (.xlen width) = true ↔ width = fixed := by
  simp only [valuation_iff, evaluate, isFixed, Xlen.evaluate]
  cases width <;> cases fixed <;> decide

/-- A configuration of a fixed width leaves only synthetic variables open. -/
theorem evaluate_eq_ofBool (fixed : config.xlen.isSome = true) {term : Term}
    (ground : term.isFree = false) :
    config.evaluate term = Verdict.ofBool (config.valuation term) := by
  have decided : config.evaluate term ≠ .maybe := by
    cases term with
    | extension ext =>
      simp only [evaluate, fact]
      cases lookup? ext.name config.extensions with
      | none => exact Verdict.noConfusion
      | some version =>
        simp only [ExtensionTerm.evaluate]
        cases ext.accepts version <;> exact Verdict.noConfusion
    | parameter param =>
      simp only [evaluate]
      cases lookup? param.name config.params with
      | none => exact Verdict.noConfusion
      | some value =>
        simp only [ParamTerm.evaluate]
        cases param.scope.select? value with
        | none => exact Verdict.noConfusion
        | some part =>
          simp only
          cases param.comparison.test part <;> exact Verdict.noConfusion
    | xlen width =>
      obtain ⟨fixedWidth, isFixed⟩ := Option.isSome_iff_exists.mp fixed
      simp only [evaluate, isFixed, Xlen.evaluate]
      cases width <;> cases fixedWidth <;> decide
    | free id => cases ground
  unfold valuation
  cases verdict : config.evaluate term with
  | yes => rfl
  | no => rfl
  | maybe => exact absurd verdict decided

/-- The verdict on a formula without synthetic variables is its truth value. -/
theorem verdict_evaluate (fixed : config.xlen.isSome = true) {f : Formula} (ground : f.IsGround) :
    f.verdict config.evaluate = Verdict.ofBool (f.holds config.valuation) :=
  Formula.verdict_eq_ofBool fun term occurs => evaluate_eq_ofBool fixed (ground term occurs)

theorem verdict_eq_yes_iff (fixed : config.xlen.isSome = true) {f : Formula} (ground : f.IsGround) :
    f.verdict config.evaluate = .yes ↔ f.holds config.valuation = true := by
  rw [verdict_evaluate fixed ground, Verdict.ofBool_eq_yes]

end Evaluation

/-- A range is implemented if one of the versions it admits is. -/
theorem range_iff_admitted {db : Database} {config : FullConfig}
    (defined : ∀ name version, lookup? name config.extensions = some version →
      version ∈ db.versions name) {range : ExtensionTerm} :
    config.valuation (.extension range) = true ↔
      ∃ term ∈ db.admitted range, config.valuation term = true := by
  rw [valuation_extension]
  constructor
  · rintro ⟨version, found, accepted⟩
    refine ⟨_, Database.mem_admitted.mpr ⟨version, defined _ _ found, accepted, rfl⟩, ?_⟩
    exact valuation_exact.mpr found
  · rintro ⟨term, admitted, truth⟩
    obtain ⟨version, _, accepted, rfl⟩ := Database.mem_admitted.mp admitted
    exact ⟨version, valuation_exact.mp truth, accepted⟩

/-- A clause means something that a configuration answers with yes. -/
def Meets (config : FullConfig) (clause : Clause) : Prop :=
  ∃ f, clause.compile = .ok f ∧ f.verdict config.evaluate = .yes

/-- A configuration of a fixed width that implements only versions the database defines,
and meets what these versions require. -/
structure LegalVersions (db : Database) (config : FullConfig) : Prop where
  fixed : config.xlen.isSome = true
  defined : ∀ name version, lookup? name config.extensions = some version →
    version ∈ db.versions name
  meetsVersion : ∀ name version clause, lookup? name config.extensions = some version →
    db.requirement? name version = some clause → config.Meets clause

/-- A configuration that also meets what is required by the parameters that have a value. -/
structure Legal (db : Database) (config : FullConfig) : Prop extends LegalVersions db config where
  meetsParameter : ∀ name value clause, lookup? name config.params = some value →
    db.parameterRequirement? name = some clause → config.Meets clause

/-- A configuration that is legal as far as a formula leads. -/
structure Respects (db : Database) (root : Formula) (config : FullConfig) : Prop where
  fixed : config.xlen.isSome = true
  defined : ∀ name version, lookup? name config.extensions = some version →
    version ∈ db.versions name
  meets : ∀ term clause, db.Reaches root term → db.Requires term clause →
    config.valuation term = true → config.Meets clause

section Respects

variable {db : Database} {root : Formula} {config : FullConfig}

theorem Legal.respects (legal : config.Legal db) (root : Formula) : config.Respects db root where
  fixed := legal.fixed
  defined := legal.defined
  meets term clause _ requires truth := by
    cases requires with
    | version required => exact legal.meetsVersion _ _ clause (valuation_exact.mp truth) required
    | parameter required =>
      obtain ⟨value, found, _⟩ := valuation_parameter.mp truth
      exact legal.meetsParameter _ value clause found required

/-- Where a formula leads to no parameter, what parameters require does not matter. -/
theorem LegalVersions.respects (legal : config.LegalVersions db)
    (noParameter : ∀ param, ¬ db.Reaches root (.parameter param)) : config.Respects db root where
  fixed := legal.fixed
  defined := legal.defined
  meets term clause reaches requires truth := by
    cases requires with
    | version required => exact legal.meetsVersion _ _ clause (valuation_exact.mp truth) required
    | parameter _ => exact absurd reaches (noParameter _)

end Respects

namespace Respects

variable {db : Database} {root : Formula} {config : FullConfig}

/-- What a term contributes is true. -/
theorem holds_contributed (respects : config.Respects db root) {term : Term}
    (reaches : db.Reaches root term) {c : Consequence} (contributes : db.Contributes term c)
    {f : Formula} (derived : f ∈ c.derived) : f.holds config.valuation = true := by
  cases contributes with
  | @requirement _ clause _ requires compiled =>
    rw [List.mem_singleton.mp derived, Formula.holds_implies, Formula.holds_atom]
    cases truth : config.valuation term with
    | false => rfl
    | true =>
      obtain ⟨g, compiledG, verdict⟩ := respects.meets term clause reaches requires truth
      cases compiled.symm.trans compiledG
      exact (verdict_eq_yes_iff respects.fixed (clause.isGround_compile _ compiled)).mp verdict
  | @unlisted ext exact missing =>
    rw [List.mem_singleton.mp derived, Formula.holds_neg, Formula.holds_atom, Bool.not_eq_true',
      ← Bool.not_eq_true]
    intro truth
    rw [Database.eq_exact_of_isExact exact] at truth
    exact missing (respects.defined _ _ (valuation_exact.mp truth))
  | unavailable isRange none =>
    rw [List.mem_singleton.mp derived, Formula.holds_neg, Formula.holds_atom, Bool.not_eq_true',
      ← Bool.not_eq_true, range_iff_admitted respects.defined, none]
    rintro ⟨_, member, _⟩
    cases member
  | range isRange =>
    rw [List.mem_singleton.mp derived, Formula.holds_iff, beq_iff_eq, Bool.eq_iff_iff,
      Formula.holds_atom, range_iff_admitted respects.defined, Formula.holds_anyOf, List.any_map,
      List.any_eq_true]
    rfl
  | nothing _ _ => cases derived

/-- At most one of some distinct versions of an extension is implemented. -/
theorem countP_exact_le {name : String} {versions : List Version} (distinct : versions.Nodup) :
    (versions.map fun version => Formula.atom (.extension (.exact name version))).countP
      (Formula.holds config.valuation) ≤ 1 := by
  rw [List.countP_map]
  cases implemented : lookup? name config.extensions with
  | none =>
    refine Nat.le_trans (Nat.le_of_eq (List.countP_eq_zero.mpr fun version _ => ?_)) (Nat.zero_le 1)
    simp [valuation_exact, implemented]
  | some version =>
    refine Nat.le_trans (List.countP_mono_left fun other _ truth => ?_)
      (List.nodup_iff_count.mp distinct version)
    have same := valuation_exact.mp truth
    rw [implemented] at same
    exact beq_iff_eq.mpr (Option.some.inj same).symm

theorem holds_relation {f : Formula} {visited : List Term}
    (related : f ∈ Database.relations visited) : f.holds config.valuation = true := by
  obtain ⟨term, other, _, _, isRelation⟩ := Database.mem_relations.mp related
  obtain ⟨agrees, stated, rfl⟩ := Option.map_eq_some_iff.mp isRelation
  rw [Formula.holds_implies, Formula.holds_atom]
  cases truth : config.valuation (.parameter term) with
  | false => rfl
  | true =>
    obtain ⟨value, found, holds⟩ := valuation_parameter.mp truth
    obtain ⟨sameName, consequent⟩ := ParamTerm.relation?_sound stated holds
    have otherHolds : config.valuation (.parameter other) = true ↔ agrees = true := by
      rw [valuation_parameter, sameName, found, ← consequent]
      simp
    cases agrees with
    | true => exact otherHolds.mpr rfl
    | false => simpa using otherHolds

theorem holds_width (respects : config.Respects db root) {f : Formula} {visited : List Term}
    (isWidth : f ∈ Database.widths visited) : f.holds config.valuation = true := by
  obtain ⟨fixed, isFixed⟩ := Option.isSome_iff_exists.mp respects.fixed
  obtain ⟨_, rfl⟩ := Database.mem_widths.mp isWidth
  have widths : ∀ width, config.valuation (.xlen width) = decide (width = fixed) := fun width => by
    rw [Bool.eq_iff_iff, valuation_xlen isFixed, decide_eq_true_iff]
  rw [Formula.holds_oneOf, beq_iff_eq]
  simp only [Xlen.both, List.map_cons, List.map_nil, List.countP_cons, List.countP_nil,
    Formula.holds_atom, widths]
  cases fixed <;> rfl

/-- Everything an expansion derives is true under a configuration that respects it. -/
theorem holds_derived (respects : config.Respects db root) (compiles : db.CompilesFrom root) :
    ∃ derived, db.derive root = .ok derived ∧ ∀ f ∈ derived, f.holds config.valuation = true := by
  obtain ⟨visited, distinct, visits, derived, isDerived, members⟩ := Database.derive_spec compiles
  refine ⟨derived, isDerived, fun f member => ?_⟩
  rcases (members f).mp member with ⟨term, seen, c, contributes, inside⟩ | excludes | related | isWidth
  · exact respects.holds_contributed ((visits term).mp seen)
      (Database.contributes_of_consequence contributes) inside
  · obtain ⟨name, _, rfl⟩ := Database.mem_exclusions.mp excludes
    exact Database.holds_exclusion.mpr (countP_exact_le (Database.nodup_listedVersions distinct))
  · exact holds_relation related
  · exact respects.holds_width isWidth

end Respects

end FullConfig

end IsaLogic
