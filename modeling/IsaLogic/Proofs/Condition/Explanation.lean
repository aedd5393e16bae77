import Mathlib
import IsaLogic.Proofs.Condition.Expansion
import IsaLogic.Proofs.Engine.Diagnosis

/-!
# Explaining unsatisfiable conditions

A condition is explained by the cores of its expansion. These have clauses again, since
the terms of a core are terms of the expansion, so an explanation fails only if the
diagnosis does. An unsatisfiable condition is explained unless its expansion has a conjunct
that is plainly false beside another one (`explained_unless_false_beside`). There the
clauses of the conjuncts build a form that is not flat, and no explanation is given
(`false_conjunct_unexplained`), although such a condition is unsatisfiable as well.
-/

namespace IsaLogic.Condition

variable {engine : Engine} {asked held : List Formula} {memory : Memory} {db : Database}
  {condition : Condition} {f : Formula}

theorem exists_ofFormula (ground : f.IsGround) : ∃ condition, ofFormula f = .ok condition := by
  obtain ⟨clause, written⟩ := Formula.exists_toClause ground
  exact ⟨{ clause, formula := f }, by rw [ofFormula, written]; rfl⟩

/-- Formulas without synthetic variables are written as conditions with these formulas. -/
theorem exists_conditions {fs : List Formula} (ground : ∀ f ∈ fs, f.IsGround) :
    ∃ conditions, fs.mapM ofFormula = .ok conditions ∧ conditions.map formula = fs := by
  induction fs with
  | nil => exact ⟨[], rfl, rfl⟩
  | cons f fs ih =>
    obtain ⟨condition, built⟩ := exists_ofFormula (ground f (List.mem_cons_self ..))
    obtain ⟨conditions, others, same⟩ := ih fun g member => ground g (List.mem_cons_of_mem f member)
    refine ⟨condition :: conditions, by rw [List.mapM_cons, built, others]; rfl, ?_⟩
    rw [List.map_cons, (ofFormula_ok built).1, same]

/-- A condition is explained by a diagnosis of its expansion, and fails only with it. -/
theorem ends_explainUnsatisfiable (search : engine.SearchesInProcess)
    (extracts : engine.ExtractsInProcess) (ground : condition.formula.IsGround)
    (expanded : condition.expanded db = .ok f) (prepared : engine.Prepared asked held memory f) :
    (condition.explainUnsatisfiable engine db).Ends memory
      (fun conditions _ =>
        f.Explains engine.limits.cnfExplosionLimit (conditions.map formula) ∧
        (lookup? (engine.fingerprint f) memory.cache.cores = none →
          ¬ (Units.ofFormula engine.limits.cnfExplosionLimit f).Unencodable))
      fun failure _ => ∃ cause, failure = .query cause ∧ engine.Refuses f cause := by
  refine Inquiry.ends_lift_bind (fun g isExpansion => ?_) fun failure failed => ?_
  · cases expanded.symm.trans isExpansion
    refine Inquiry.ends_ofQuery_bind (Engine.ends_cores search extracts prepared) ?_
      fun cause _ refused => ⟨cause, rfl, refused.1⟩
    rintro cores next ⟨⟨explains, encodable⟩, _⟩
    have groundCores : ∀ core ∈ cores, core.IsGround := fun core member =>
      (explains.isCore core member).mentionsOnly (Database.isGround_expand ground expanded)
    obtain ⟨conditions, written, same⟩ := exists_conditions groundCores
    rw [written]
    change f.Explains _ (conditions.map formula) ∧ _
    rw [same]
    exact ⟨explains, encodable⟩
  · cases expanded.symm.trans failed

/-- In process, an engine diagnoses every formula, and explains every condition whose expansion
succeeds, with a list that is not empty if the formula is unsatisfiable, except where one conjunct
is plainly false beside another. There it fails, and just there. -/
theorem explained_unless_false_beside (search : engine.SearchesInProcess)
    (extracts : engine.ExtractsInProcess) (asked held : List Formula) (memory : Memory) :
    (∀ f : Formula, engine.Prepared asked held memory f →
      lookup? (engine.fingerprint f) memory.cache.cores = none →
      (engine.cores f).Ends memory
        (fun cores _ => ¬ f.FalseBeside engine.limits.cnfExplosionLimit ∧
          (¬ f.Satisfiable → cores ≠ []))
        fun failure _ => f.FalseBeside engine.limits.cnfExplosionLimit ∧ ¬ f.Satisfiable ∧
          ∃ text, failure = .notCnf text) ∧
    ∀ (db : Database) (condition : Condition) (f : Formula), condition.Built →
      condition.expanded db = .ok f → engine.Prepared asked held memory f →
      lookup? (engine.fingerprint f) memory.cache.cores = none →
      (condition.explainUnsatisfiable engine db).Ends memory
        (fun conditions _ => ¬ f.FalseBeside engine.limits.cnfExplosionLimit ∧
          (¬ f.Satisfiable → conditions ≠ []))
        fun failure _ => f.FalseBeside engine.limits.cnfExplosionLimit ∧ ¬ f.Satisfiable ∧
          ∃ text, failure = .query (.notCnf text) := by
  refine ⟨fun f prepared unknown => ?_, fun db condition f built expanded prepared unknown => ?_⟩
  · refine (Engine.ends_cores search extracts prepared).mono ?_ ?_
    · rintro cores next ⟨⟨explains, encodable⟩, _⟩
      rw [← Units.unencodable_iff]
      exact ⟨encodable unknown, fun unsatisfiable empty =>
        unsatisfiable (explains.eq_nil_iff.mp empty)⟩
    · rintro failure next ⟨⟨unencodable, isText⟩, _⟩
      have beside := Units.unencodable_iff.mp unencodable
      exact ⟨beside, beside.not_satisfiable, _, isText⟩
  · refine (ends_explainUnsatisfiable search extracts built.isGround expanded prepared).mono ?_ ?_
    · rintro conditions next ⟨explains, encodable⟩
      rw [← Units.unencodable_iff]
      refine ⟨encodable unknown, fun unsatisfiable empty => unsatisfiable ?_⟩
      rw [← explains.eq_nil_iff, empty]
      rfl
    · rintro failure next ⟨cause, rfl, unencodable, rfl⟩
      have beside := Units.unencodable_iff.mp unencodable
      exact ⟨beside, beside.not_satisfiable, _, rfl⟩

/-- A condition that asks for both register widths is explained by an engine that was not asked
before. -/
theorem explained_unless_false_beside_widths :
    let engine := Engine.inProcess {}
    let both := Formula.conj [.atom (.xlen .rv32), .atom (.xlen .rv64)]
    let condition : Condition := { clause := .allOf [.xlen .rv32, .xlen .rv64], formula := both }
    let expansion := Formula.conj [both, .exactlyOne [.atom (.xlen .rv32), .atom (.xlen .rv64)]]
    condition.Built ∧ condition.expanded {} = .ok expansion ∧ engine.SearchesInProcess ∧
      engine.ExtractsInProcess ∧ engine.Prepared [expansion] [] {} expansion ∧
      lookup? (engine.fingerprint expansion) ({} : Memory).cache.cores = none ∧
      (engine.cores expansion).Answers {} (fun cores _ => cores ≠ []) ∧
      (condition.explainUnsatisfiable engine {}).Ends {} (fun conditions _ => conditions ≠ [])
        fun _ _ => False := by
  intro engine both condition expansion
  have compiled : ofClause (.allOf [.xlen .rv32, .xlen .rv64]) = .ok condition := rfl
  have built : condition.Built := .ofClause compiled
  have expanded : condition.expanded {} = .ok expansion := by
    change Database.expand {} both = .ok expansion
    cbv
  have search : engine.SearchesInProcess := fun _ => rfl
  have extracts : engine.ExtractsInProcess := ⟨12, fun _ => rfl⟩
  have clauses : (Units.ofFormula 10 expansion).whole = [] ∧
      (Units.ofFormula 10 expansion).clauses.contains [] = false := by
    constructor <;> cbv
  have prepared : engine.Prepared [expansion] [] {} expansion := by
    refine Engine.prepared_initial (.singleton _ _) (List.mem_singleton.mpr rfl) ?_ ?_
    · rintro question ⟨someWhole, _⟩
      exact absurd clauses.1 someWhole
    · simp [expansion, both, Term.NumberedBelow]
  have unknown : lookup? (engine.fingerprint expansion) ({} : Memory).cache.cores = none := rfl
  have unsatisfiable : ¬ expansion.Satisfiable := by
    rintro ⟨valuation, truth⟩
    revert truth
    cases at32 : valuation (.xlen .rv32) <;> cases at64 : valuation (.xlen .rv64) <;>
      simp [expansion, both, at32, at64]
  have encodable : ¬ expansion.FalseBeside engine.limits.cnfExplosionLimit := by
    rw [← Units.unencodable_iff]
    rintro ⟨_, member, _⟩
    cases clauses.2.symm.trans (List.contains_iff_mem.mpr member)
  -- from here on nothing has to be computed
  clear_value engine condition expansion
  obtain ⟨ofFormula, ofCondition⟩ := explained_unless_false_beside search extracts [expansion] [] {}
  refine ⟨built, expanded, search, extracts, prepared, unknown, ?_, ?_⟩
  · exact (ofFormula expansion prepared unknown).mono
      (fun _ _ explained => explained.2 unsatisfiable) fun _ _ failed => encodable failed.1
  · exact (ofCondition {} condition expansion built expanded prepared unknown).mono
      (fun _ _ explained => explained.2 unsatisfiable) fun _ _ failed => encodable failed.1

/-- Neither the formula that says `A` and something false nor the condition with that formula is
explained, although both are unsatisfiable. -/
theorem false_conjunct_unexplained :
    let engine := Engine.inProcess {}
    let one : Version := { major := 1, minor := 0, patch := 0 }
    let db : Database := { extensions := [("A", [(one, none)])] }
    let f := Formula.conj [.atom (.extension (.exact "A" one)), .constant false]
    let condition : Condition :=
      { clause := .allOf [.extension "A" (some "= 1.0"), .bool false], formula := f }
    condition.Built ∧ condition.expanded db = .ok f ∧ ¬ f.Satisfiable ∧
      engine.SearchesInProcess ∧ engine.ExtractsInProcess ∧
      (engine.cores f).Ends {} (fun _ _ => False)
        (fun failure _ => failure = .notCnf "A=1.0.0 ∧ ⊥") ∧
      (condition.explainUnsatisfiable engine db).Ends {} (fun _ _ => False)
        fun failure _ => failure = .query (.notCnf "A=1.0.0 ∧ ⊥") := by
  intro engine one db f condition
  have compiled : ofClause (.allOf [.extension "A" (some "= 1.0"), .bool false]) =
      .ok condition := rfl
  have built : condition.Built := .ofClause compiled
  have expanded : condition.expanded db = .ok f := by
    change db.expand f = .ok f
    cbv
  have unsatisfiable : ¬ f.Satisfiable := by
    rintro ⟨valuation, truth⟩
    simp [f] at truth
  have search : engine.SearchesInProcess := fun _ => rfl
  have extracts : engine.ExtractsInProcess := ⟨12, fun _ => rfl⟩
  have units : (Units.ofFormula 10 f).whole = [] ∧ (Units.ofFormula 10 f).clauses =
      [[{ term := .extension (.exact "A" one), positive := true }], []] := by
    constructor <;> cbv
  have unencodable : (Units.ofFormula engine.limits.cnfExplosionLimit f).Unencodable := by
    change (Units.ofFormula 10 f).whole = [] ∧ [] ∈ (Units.ofFormula 10 f).clauses ∧
      (Units.ofFormula 10 f).clauses ≠ [[]]
    rw [units.2]
    exact ⟨units.1, by simp, by simp⟩
  have text : ∀ failure, engine.Refuses f failure → failure = .notCnf "A=1.0.0 ∧ ⊥" := by
    rintro _ ⟨_, rfl⟩
    change QueryError.notCnf (Formula.ofClauses (Units.ofFormula 10 f).clauses).text = _
    rw [units.2]
    exact congrArg QueryError.notCnf (by decide +kernel)
  have prepared : engine.Prepared [f] [] {} f := by
    refine Engine.prepared_initial (.singleton _ _) (List.mem_singleton.mpr rfl) ?_ ?_
    · rintro question ⟨someWhole, _⟩
      exact absurd units.1 someWhole
    · simp [f, Term.NumberedBelow]
  clear_value engine f condition
  refine ⟨built, expanded, unsatisfiable, search, extracts, ?_, ?_⟩
  · exact (Engine.ends_cores search extracts prepared).mono
      (fun _ _ answered => answered.1.2 rfl unencodable) fun failure _ failed =>
        text failure failed.1
  · refine (ends_explainUnsatisfiable search extracts built.isGround expanded prepared).mono
      (fun _ _ answered => answered.2 rfl unencodable) ?_
    rintro _ next ⟨cause, rfl, refuses⟩
    rw [text cause refuses]

end IsaLogic.Condition
