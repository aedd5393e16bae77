import Mathlib
import IsaLogic.Condition.Basic
import IsaLogic.Proofs.Clause.Compile
import IsaLogic.Proofs.Configuration.Legal
import IsaLogic.Proofs.Formula.Knowledge

/-!
# Answers under a partial configuration are final

A full configuration completes a partial one if it fills in what is left open and
changes nothing that is fixed (`PartialConfig.Completes`). Whatever the partial
configuration decides of a term, every completion decides in the same way
(`Completes.persists`): on versions of an extension this is an argument about sets of
versions, and on an extension without known versions only about the listed terms.
Verdicts on conditions are then never taken back, and what is left of a condition has
the verdict of the condition under every completion.

The completion need not be a legal configuration of the database.
-/

namespace IsaLogic

namespace PartialConfig

/-- A full configuration that fills in what a partial one leaves open. Of a name without known
versions, any version may be implemented. -/
structure Completes (db : Database) (known : PartialConfig) (full : FullConfig) : Prop where
  mandatory : ∀ term ∈ known.mandatory, ∃ version,
    lookup? term.name full.extensions = some version ∧ term.accepts version = true
  prohibited : ∀ term ∈ known.prohibited, ∀ version,
    lookup? term.name full.extensions = some version → term.accepts version = false
  listed : ∀ name version, db.versions name ≠ [] →
    lookup? name full.extensions = some version → version ∈ db.versions name
  params : ∀ name value, lookup? name known.params = some value →
    lookup? name full.params = some value
  width : ∃ width, full.xlen = some width ∧
    (known.possibleXlens ≠ [] → width ∈ known.possibleXlens)

theorem mem_satisfying {term : ExtensionTerm} {available : List Version} {version : Version} :
    version ∈ term.satisfying available ↔ version ∈ available ∧ term.accepts version = true := by
  rw [ExtensionTerm.satisfying, mem_ascending, List.mem_filter]

theorem mem_leaves {name : String} {known : List Version} {terms : List ExtensionTerm}
    {versions : List Version} :
    versions ∈ leaves name known terms ↔
      ∃ term ∈ terms, term.name = name ∧ term.satisfying known = versions := by
  simp [leaves, and_assoc]

/-- A decisive mandatory requirement leaves some versions, and these are all wanted or all
unwanted. -/
theorem of_verdictOfMandatory {wanted : List Version} {left : List (List Version)}
    {verdict : Verdict} (decides : verdictOfMandatory wanted left = some verdict) :
    ∃ allowed ∈ left,
      (verdict = .yes ∧ ∀ version ∈ allowed, version ∈ wanted) ∨
        (verdict = .no ∧ ∀ version ∈ allowed, version ∉ wanted) := by
  induction left with
  | nil => cases decides
  | cons allowed rest ih =>
    rw [verdictOfMandatory] at decides
    split at decides
    · obtain ⟨other, member, outcome⟩ := ih decides
      exact ⟨other, List.mem_cons_of_mem _ member, outcome⟩
    split at decides
    · rename_i allWanted
      cases decides
      refine ⟨allowed, List.mem_cons_self .., .inl ⟨rfl, fun version member => ?_⟩⟩
      exact List.contains_iff_mem.mp (List.all_eq_true.mp allWanted version member)
    split at decides
    · rename_i noneWanted
      cases decides
      refine ⟨allowed, List.mem_cons_self .., .inr ⟨rfl, fun version member isWanted => ?_⟩⟩
      have unwanted := List.all_eq_true.mp noneWanted version member
      rw [List.contains_iff_mem.mpr isWanted] at unwanted
      cases unwanted
    · obtain ⟨other, member, outcome⟩ := ih decides
      exact ⟨other, List.mem_cons_of_mem _ member, outcome⟩

namespace Completes

variable {db : Database} {known : PartialConfig} {full : FullConfig}

/-- An extension without known versions is decided by the terms that are listed. -/
theorem persists_unknown (completes : known.Completes db full) {ext : ExtensionTerm}
    (unknown : (db.versions ext.name).isEmpty = true) :
    (known.evaluateExtension db ext).Persists (full.evaluate (.extension ext)) := by
  rw [evaluateExtension]
  simp only [unknown, if_true]
  split
  · rename_i isMandatory
    obtain ⟨version, found, accepted⟩ :=
      completes.mandatory ext (List.contains_iff_mem.mp isMandatory)
    exact fun _ => FullConfig.evaluate_extension_eq_yes.mpr ⟨version, found, accepted⟩
  split
  · rename_i isProhibited
    exact fun _ => FullConfig.evaluate_extension_eq_no.mpr fun version found =>
      completes.prohibited ext (List.contains_iff_mem.mp isProhibited) version found
  · exact Verdict.persists_maybe _

/-- An extension with known versions is decided by which of them the requirements leave. -/
theorem persists_known (completes : known.Completes db full) {ext : ExtensionTerm}
    (isKnown : db.versions ext.name ≠ []) :
    (known.evaluateExtension db ext).Persists (full.evaluate (.extension ext)) := by
  have isNo : (∀ version, lookup? ext.name full.extensions = some version →
      version ∉ ext.satisfying (db.versions ext.name)) → full.evaluate (.extension ext) = .no := by
    intro unwanted
    refine FullConfig.evaluate_extension_eq_no.mpr fun version found =>
      Bool.eq_false_iff.mpr fun accepted => unwanted version found ?_
    exact mem_satisfying.mpr ⟨completes.listed _ _ isKnown found, accepted⟩
  rw [evaluateExtension]
  simp only [List.isEmpty_iff, isKnown, if_false]
  split
  · rename_i noneWanted
    refine fun _ => isNo fun version _ isWanted => ?_
    rw [noneWanted] at isWanted
    cases isWanted
  split
  · rename_i verdict decides
    intro _
    obtain ⟨allowed, isLeft, outcome⟩ := of_verdictOfMandatory decides
    obtain ⟨term, isMandatory, sameName, rfl⟩ := mem_leaves.mp isLeft
    obtain ⟨version, found, accepted⟩ := completes.mandatory term isMandatory
    rw [sameName] at found
    have isAllowed : version ∈ term.satisfying (db.versions ext.name) :=
      mem_satisfying.mpr ⟨completes.listed _ _ isKnown found, accepted⟩
    rcases outcome with ⟨rfl, allWanted⟩ | ⟨rfl, noneWanted⟩
    · exact FullConfig.evaluate_extension_eq_yes.mpr
        ⟨version, found, (mem_satisfying.mp (allWanted version isAllowed)).2⟩
    · refine isNo fun other foundOther => ?_
      cases found.symm.trans foundOther
      exact noneWanted version isAllowed
  · split
    · rename_i ruledOut
      obtain ⟨banned, isLeft, allBanned⟩ := List.any_eq_true.mp ruledOut
      obtain ⟨term, isProhibited, sameName, rfl⟩ := mem_leaves.mp isLeft
      refine fun _ => isNo fun version found isWanted => ?_
      have isBanned := List.contains_iff_mem.mp (List.all_eq_true.mp allBanned version isWanted)
      have refused := completes.prohibited term isProhibited version (sameName ▸ found)
      rw [(mem_satisfying.mp isBanned).2] at refused
      cases refused
    · exact Verdict.persists_maybe _

theorem persists_xlen (completes : known.Completes db full) (width : Xlen) :
    (known.evaluate db (.xlen width)).Persists (full.evaluate (.xlen width)) := by
  obtain ⟨fixed, isFixed, isPossible⟩ := completes.width
  have full_eq : full.evaluate (.xlen width) = .ofBool (width = fixed) := by
    simp only [FullConfig.evaluate, isFixed, Xlen.evaluate]
    cases width <;> cases fixed <;> decide
  rw [full_eq, evaluate]
  split
  · cases width <;> exact Verdict.persists_maybe _
  · rename_i restricted
    have isOne : fixed ∈ known.possibleXlens := isPossible (by simpa using restricted)
    rw [Xlen.evaluate]
    split
    · rename_i excluded
      intro _
      have differs : width ≠ fixed := by
        rintro rfl
        simp [isOne] at excluded
      simp [differs, Verdict.ofBool]
    split
    · rename_i included single
      intro _
      obtain ⟨only, isOnly⟩ := List.length_eq_one_iff.mp single
      have isWidth : width = only := by simpa [isOnly] using included
      have isFixed : fixed = only := by simpa [isOnly] using isOne
      simp [isWidth, isFixed, Verdict.ofBool]
    · exact Verdict.persists_maybe _

/-- What a partial configuration decides of a term, every completion decides in the same way. -/
theorem persists (completes : known.Completes db full) (term : Term) :
    (known.evaluate db term).Persists (full.evaluate term) := by
  cases term with
  | extension ext =>
    by_cases unknown : db.versions ext.name = []
    · exact completes.persists_unknown (List.isEmpty_iff.mpr unknown)
    · exact completes.persists_known unknown
  | parameter param =>
    rw [evaluate, FullConfig.evaluate]
    cases found : lookup? param.name known.params with
    | none => exact Verdict.persists_maybe _
    | some value =>
      rw [completes.params _ _ found]
      exact .refl _
  | xlen width => exact completes.persists_xlen width
  | free id => exact .refl _

end Completes

end PartialConfig

namespace Condition

/-- What is left of a condition without synthetic variables is a condition. -/
theorem exists_settle {condition : Condition} (ground : condition.formula.IsGround)
    (known : Term → Verdict) :
    ∃ residual, condition.settle known = .ok residual ∧
      residual.formula = condition.formula.partialEvaluate known := by
  obtain ⟨clause, written⟩ :=
    Formula.exists_toClause (Formula.mentionsOnly_partialEvaluate known ground)
  exact ⟨⟨clause, _⟩, by rw [settle, ofFormula, written]; rfl, rfl⟩

/-- A decided answer under a partial configuration is the answer under every completion, and
what is left of the condition has the verdict of the condition there. -/
theorem partial_answers_final {db : Database} {known : PartialConfig} {full : FullConfig}
    (completes : known.Completes db full) {condition : Condition}
    (ground : condition.formula.IsGround) :
    (condition.satisfiedBy db (.partly known) = .yes →
      condition.satisfiedBy db (.fully full) = .yes) ∧
    (condition.satisfiedBy db (.partly known) = .no →
      condition.satisfiedBy db (.fully full) = .no) ∧
    ∃ residual, condition.partiallyEvaluate db (.partly known) = .ok residual ∧
      residual.satisfiedBy db (.fully full) = condition.satisfiedBy db (.fully full) := by
  have persists : (condition.satisfiedBy db (.partly known)).Persists
      (condition.satisfiedBy db (.fully full)) :=
    Formula.verdict_persists fun term _ => completes.persists term
  refine ⟨fun isYes => ?_, fun isNo => ?_, ?_⟩
  · exact (persists (by rw [isYes]; nofun)).trans isYes
  · exact (persists (by rw [isNo]; nofun)).trans isNo
  · obtain ⟨width, isFixed, _⟩ := completes.width
    have fixed : full.xlen.isSome = true := by rw [isFixed]; rfl
    obtain ⟨residual, settled, left⟩ := exists_settle ground (known.evaluate db)
    refine ⟨residual, settled, ?_⟩
    have groundLeft : residual.formula.IsGround :=
      left ▸ Formula.mentionsOnly_partialEvaluate _ ground
    have sameTruth : residual.formula.holds full.valuation =
        condition.formula.holds full.valuation := by
      rw [left]
      refine Formula.holds_partialEvaluate fun term occurs => ?_
      change (known.evaluate db term).Persists (.ofBool (full.valuation term))
      rw [← FullConfig.evaluate_eq_ofBool fixed (ground term occurs)]
      exact completes.persists term
    exact (FullConfig.verdict_evaluate fixed groundLeft).trans
      (sameTruth ▸ (FullConfig.verdict_evaluate fixed ground).symm)

/-- One version of an extension is prohibited, and of another extension no versions are known. -/
theorem partial_answers_final_prohibited :
    let one : Version := { major := 1, minor := 0, patch := 0 }
    let two : Version := { major := 2, minor := 0, patch := 0 }
    let db : Database := { extensions := [("A", [(one, none), (two, none)])] }
    let known : PartialConfig := {
      mandatory := [.any "A", .any "X"]
      prohibited := [.exact "A" one]
      params := [("P", .int 3)]
      possibleXlens := [.rv64] }
    let full : FullConfig := {
      extensions := [("A", two), ("X", one)]
      params := [("P", .int 3), ("Q", .bool true)]
      xlen := some .rv64 }
    let condition : Condition := {
      clause := .oneOf [.extension "A" (some "= 2.0.0"), .xlen .rv32]
      formula := .exactlyOne [.atom (.extension (.exact "A" two)), .atom (.xlen .rv32)] }
    let decided : Condition := {
      clause := .extension "A" none
      formula := .atom (.extension (.any "A")) }
    known.Completes db full ∧ condition.formula.IsGround ∧ decided.formula.IsGround ∧
      decided.satisfiedBy db (.partly known) = .yes ∧
      decided.satisfiedBy db (.fully full) = .yes ∧
      condition.satisfiedBy db (.partly known) = .maybe ∧
      condition.satisfiedBy db (.fully full) = .yes ∧
      ∃ residual, condition.partiallyEvaluate db (.partly known) = .ok residual ∧
        residual.satisfiedBy db (.fully full) = .yes := by
  intro one two db known full condition decided
  have completes : known.Completes db full := {
    mandatory := by
      intro term member
      rcases List.mem_cons.mp member with rfl | later
      · exact ⟨two, rfl, by decide⟩
      · rw [List.mem_singleton.mp later]
        exact ⟨one, rfl, by decide⟩
    prohibited := by
      intro term member version found
      rw [List.mem_singleton.mp member] at found ⊢
      cases found
      decide
    listed := by
      intro name version isKnown found
      have isName : name = "A" := Decidable.not_not.mp fun other => isKnown (by
        simp [Database.versions, Database.releases, db, lookup?, Ne.symm other])
      subst isName
      cases found
      decide
    params := by
      intro name value found
      have isEntry := mem_of_lookup? found
      cases List.mem_singleton.mp isEntry
      rfl
    width := ⟨.rv64, rfl, fun _ => List.mem_singleton.mpr rfl⟩ }
  have ground : condition.formula.IsGround := by
    simp [condition, Formula.IsGround, Term.isFree]
  have groundDecided : decided.formula.IsGround := by
    simp [decided, Formula.IsGround, Term.isFree]
  have early : decided.satisfiedBy db (.partly known) = .yes := by cbv
  have isYes : condition.satisfiedBy db (.fully full) = .yes := by decide
  obtain ⟨_, _, residual, settled, same⟩ := partial_answers_final completes ground
  exact ⟨completes, ground, groundDecided, early,
    (partial_answers_final completes groundDecided).1 early, by cbv, isYes, residual, settled,
    same.trans isYes⟩

end Condition

end IsaLogic
