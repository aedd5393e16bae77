import Mathlib
import IsaLogic.Condition.Basic
import IsaLogic.Proofs.Configuration.Legal
import IsaLogic.Proofs.Database.Worklist

/-!
# Any version of an extension

A clause that names no version means the versions from `0.0.0` on. In the order of versions only
the pre-releases of `0.0.0` come before it (`Version.compare_zero`), with or without build metadata,
so these are all that the clause leaves out (`ExtensionTerm.accepts_any`): a configuration that
implements one of them does not satisfy the clause, and an expansion relates the term to the exact
terms of the other listed versions (`Condition.versionless_iff`).
-/

namespace IsaLogic

namespace Version

/-- A pre-release of `0.0.0`. -/
def isBeforeZero (version : Version) : Bool :=
  version.major == 0 && version.minor == 0 && version.patch == 0 && !version.pre.isEmpty

theorem compare_number_zero (number : UInt64) :
    compare number 0 = if number = 0 then .eq else .gt := by
  simp [compare, compareOfLessAndEq]

/-- The pre-releases of `0.0.0` are the versions before it. -/
theorem compare_zero (version : Version) :
    (compare version zero).isGE = !version.isBeforeZero := by
  obtain ⟨major, minor, patch, pre, build⟩ := version
  change (order _ zero).isGE = _
  simp only [order, zero, compare_number_zero, isBeforeZero, List.map_nil]
  by_cases isMajor : major = 0
  · by_cases isMinor : minor = 0
    · by_cases isPatch : patch = 0
      · -- the numbers agree: a pre-release decides, or else the metadata, of which zero has none
        cases pre <;> cases build <;> simp [isMajor, isMinor, isPatch, comparePre, compareSegments]
      · simp [isMajor, isMinor, isPatch]
    · simp [isMajor, isMinor]
  · simp [isMajor]

end Version

namespace ExtensionTerm

/-- A requirement of any version leaves out the pre-releases of `0.0.0`. -/
theorem accepts_any {name : String} {version : Version} :
    (any name).accepts version = true ↔ version.isBeforeZero = false := by
  change (compare version Version.zero).isGE = true ↔ _
  rw [Version.compare_zero, Bool.not_eq_true']

end ExtensionTerm

namespace Database

/-- What an expansion derives of a range of versions: it amounts to the listed versions that it
admits. -/
theorem range_iff_listed {db : Database} {root : Formula} {range : ExtensionTerm}
    (reaches : db.Reaches root (.extension range)) (isRange : range.isExact = false)
    (compiles : db.CompilesFrom root) :
    ∃ derived, db.derive root = .ok derived ∧ ∀ valuation,
      (∀ f ∈ derived, f.holds valuation = true) →
      (valuation (.extension range) = true ↔ ∃ version ∈ db.versions range.name,
        range.accepts version = true ∧
          valuation (.extension (.exact range.name version)) = true) := by
  obtain ⟨visited, _, visits, derived, isDerived, members⟩ := derive_spec compiles
  refine ⟨derived, isDerived, fun valuation holds => ?_⟩
  have seen := (visits _).mpr reaches
  obtain ⟨c, contributes⟩ := exists_consequence fun clause => compiles _ clause reaches
  have contributed : ∀ f ∈ c.derived, f.holds valuation = true := fun f inside =>
    holds f ((members f).mpr (.inl ⟨_, seen, c, contributes, inside⟩))
  have listed : (∃ term ∈ db.admitted range, valuation term = true) ↔
      ∃ version ∈ db.versions range.name, range.accepts version = true ∧
        valuation (.extension (.exact range.name version)) = true := by
    simp only [mem_admitted]
    constructor
    · rintro ⟨_, ⟨version, isListed, accepted, rfl⟩, truth⟩
      exact ⟨version, isListed, accepted, truth⟩
    · rintro ⟨version, isListed, accepted, truth⟩
      exact ⟨_, ⟨version, isListed, accepted, rfl⟩, truth⟩
  rw [← listed]
  cases contributes_of_consequence contributes with
  | requirement requires _ => cases requires with | version _ => cases isRange
  | unlisted exact _ => rw [exact] at isRange; cases isRange
  | unavailable _ none =>
    have fails := contributed _ (List.mem_singleton.mpr rfl)
    rw [Formula.holds_neg, Formula.holds_atom, Bool.not_eq_true'] at fails
    simp [none, fails]
  | range _ =>
    have agrees := contributed _ (List.mem_singleton.mpr rfl)
    rw [Formula.holds_iff, beq_iff_eq, Formula.holds_atom, Formula.holds_anyOf, List.any_map]
      at agrees
    rw [agrees, List.any_eq_true]
    rfl
  | nothing _ exact => rw [(exact range rfl).1] at isRange; cases isRange

end Database

namespace Condition

/-- An extension without a version is satisfied by the configurations that implement it at a version
that is no pre-release of `0.0.0`, and refused by all others. Wherever it comes up in an expansion,
it amounts to the exact versions that the database lists, again but for pre-releases of `0.0.0`. -/
theorem versionless_iff (name : String) :
    ∃ condition, ofClause (.extension name none) = .ok condition ∧
      (∀ db config, condition.satisfiedBy db (.fully config) ≠ .maybe ∧
        (condition.satisfiedBy db (.fully config) = .yes ↔ ∃ version,
          lookup? name config.extensions = some version ∧ version.isBeforeZero = false)) ∧
      ∀ (db : Database) (root : Formula), db.Reaches root (.extension (.any name)) →
        db.CompilesFrom root → ∃ derived, db.derive root = .ok derived ∧ ∀ valuation,
          (∀ f ∈ derived, f.holds valuation = true) →
          (condition.formula.holds valuation = true ↔ ∃ version ∈ db.versions name,
            version.isBeforeZero = false ∧
              valuation (.extension (.exact name version)) = true) := by
  refine ⟨_, rfl, fun db config => ⟨?_, ?_⟩, fun db root reaches compiles => ?_⟩
  · change config.evaluate (.extension (.any name)) ≠ .maybe
    rw [FullConfig.evaluate, FullConfig.fact]
    cases lookup? (ExtensionTerm.any name).name config.extensions with
    | none => exact Verdict.noConfusion
    | some version =>
      rw [ExtensionTerm.evaluate]
      cases (ExtensionTerm.any name).accepts version <;> exact Verdict.noConfusion
  · change config.evaluate (.extension (.any name)) = .yes ↔ _
    rw [FullConfig.evaluate_extension_eq_yes]
    simp only [ExtensionTerm.accepts_any]
    rfl
  · obtain ⟨derived, isDerived, amounts⟩ := Database.range_iff_listed reaches rfl compiles
    refine ⟨derived, isDerived, fun valuation holds => ?_⟩
    have listed := amounts valuation holds
    simp only [ExtensionTerm.accepts_any] at listed
    exact listed

/-- A pre-release of `0.0.0` beside `0.0.0` with build metadata and a pre-release of `0.0.1`. -/
theorem versionless_iff_prereleases :
    let early : Version := { major := 0, minor := 0, patch := 0, pre := [⟨['r', 'c'], rfl⟩] }
    let built : Version := { major := 0, minor := 0, patch := 0, build := [⟨['b'], rfl⟩] }
    let next : Version := { major := 0, minor := 0, patch := 1, pre := [⟨['0'], rfl⟩] }
    let db : Database := { extensions := [("A", [(early, none), (built, none), (next, none)])] }
    let config : FullConfig := { extensions := [("A", next)], xlen := some .rv64 }
    ∃ condition, ofClause (.extension "A" none) = .ok condition ∧
      condition.satisfiedBy db (.fully config) = .yes ∧
      ∃ derived, db.derive condition.formula = .ok derived ∧ ∀ valuation,
        (∀ f ∈ derived, f.holds valuation = true) →
        (condition.formula.holds valuation = true ↔
          valuation (.extension (.exact "A" built)) = true ∨
            valuation (.extension (.exact "A" next)) = true) := by
  intro early built next db config
  obtain ⟨condition, isCondition, verdict, amounts⟩ := versionless_iff "A"
  have whole : condition.formula = .atom (.extension (.any "A")) := by
    cases isCondition
    rfl
  have reaches : db.Reaches condition.formula (.extension (.any "A")) := .root (by simp [whole])
  have compiles : db.CompilesFrom condition.formula := by
    rw [whole]
    exact Database.exists_explore_iff.mpr ⟨_, by cbv⟩
  obtain ⟨derived, isDerived, agrees⟩ := amounts db condition.formula reaches compiles
  refine ⟨condition, isCondition, (verdict db config).2.mpr ⟨next, rfl, rfl⟩, derived, isDerived,
    fun valuation holds => ?_⟩
  rw [agrees valuation holds]
  have versions : db.versions "A" = [early, built, next] := rfl
  simp [versions, early, built, next, Version.isBeforeZero]

/-- The only version that a database lists is a pre-release of `0.0.0`: the configuration that
implements it is legal and does not satisfy the clause, and an expansion rules the term out beside
the version. -/
theorem versionless_misses_early :
    let early : Version := { major := 0, minor := 0, patch := 0, pre := [⟨['r', 'c'], rfl⟩] }
    let db : Database := { extensions := [("A", [(early, none)])] }
    let config : FullConfig := { extensions := [("A", early)], xlen := some .rv64 }
    let condition : Condition := ⟨.extension "A" none, .atom (.extension (.any "A"))⟩
    ofClause (.extension "A" none) = .ok condition ∧
      lookup? "A" config.extensions = some early ∧
      condition.satisfiedBy db (.fully config) = .no ∧
      db.versions "A" = [early] ∧
      db.derive condition.formula = .ok [.neg (.atom (.extension (.any "A")))] := by
  intro early db config condition
  exact ⟨rfl, rfl, by decide, rfl, by cbv⟩

end Condition

end IsaLogic
