import IsaLogic.Condition.Basic
import IsaLogic.Proofs.Configuration.Completion
import IsaLogic.Proofs.Database.Inheritance
import IsaLogic.Proofs.Engine.Satisfiability

/-!
# Conditions and legal configurations

Expansion never rules out a legal configuration: whatever a database allows remains
a valuation of the expanded formula (`expansion_admits_legal`). Where no parameter
is involved it rules out everything else (`expansion_complete`), so an engine's
answers about conditions are answers about legal configurations.

Both statements are about conditions as they can be built (`Built`); their formulas
have no synthetic variables.
-/

namespace IsaLogic

namespace Inquiry

/-- A question about conditions that has an answer of some kind. -/
def Answers {α : Type} (inquiry : Inquiry α) (memory : Memory) (answers : α → Prop) : Prop :=
  ∃ answer next, inquiry.run memory = (.ok answer, next) ∧ answers answer

variable {α β : Type} {memory next : Memory}

theorem Answers.mono {inquiry : Inquiry α} {answers more : α → Prop}
    (ends : inquiry.Answers memory answers) (imply : ∀ answer, answers answer → more answer) :
    inquiry.Answers memory more := by
  obtain ⟨answer, next, runs, holds⟩ := ends
  exact ⟨answer, next, runs, imply answer holds⟩

theorem run_lift_bind {first : Except ConditionError α} {value : α} (succeeds : first = .ok value)
    (rest : α → Inquiry β) :
    (liftM first >>= rest : Inquiry β).run memory = (rest value).run memory := by
  subst succeeds
  rfl

theorem run_ofQuery {query : Query α} {answer : α} (runs : query.run memory = (.ok answer, next)) :
    (ofQuery query).run memory = (.ok answer, next) := by
  change (((query.run memory).1.mapError ConditionError.query, (query.run memory).2) :
    Except ConditionError α × Memory) = _
  rw [runs]
  rfl

/-- How a question about conditions ends from a memory. -/
def Ends (inquiry : Inquiry α) (memory : Memory) (answers : α → Memory → Prop)
    (fails : ConditionError → Memory → Prop) : Prop :=
  match inquiry.run memory with
  | (.ok answer, next) => answers answer next
  | (.error failure, next) => fails failure next

section Ends

variable {answers : β → Memory → Prop} {fails : ConditionError → Memory → Prop}

theorem Ends.mono {inquiry : Inquiry β} {more : β → Memory → Prop}
    {moreFails : ConditionError → Memory → Prop} (ends : inquiry.Ends memory answers fails)
    (answersImply : ∀ answer next, answers answer next → more answer next)
    (failsImply : ∀ failure next, fails failure next → moreFails failure next) :
    inquiry.Ends memory more moreFails := by
  unfold Ends at ends ⊢
  split at ends
  · exact answersImply _ _ ends
  · exact failsImply _ _ ends

/-- What a question about conditions has answered is among the answers it may end with. -/
theorem Ends.answered {inquiry : Inquiry β} {answer : β} (ends : inquiry.Ends memory answers fails)
    (run : inquiry.run memory = (.ok answer, next)) : answers answer next := by
  unfold Ends at ends
  rwa [run] at ends

/-- What holds after a question about conditions whether it answers or fails. -/
theorem Ends.after {inquiry : Inquiry β} {holds : Memory → Prop}
    (ends : inquiry.Ends memory (fun _ => holds) fun _ => holds) : holds (inquiry.run memory).2 := by
  unfold Ends at ends
  split at ends <;> rename_i run <;> rw [run] <;> exact ends

/-- A question that starts with one to an engine. -/
theorem ends_ofQuery_bind {query : Query α} {rest : α → Inquiry β}
    {answered : α → Memory → Prop} {failed : QueryError → Memory → Prop}
    (first : query.Ends memory answered failed)
    (later : ∀ answer next, answered answer next → (rest answer).Ends next answers fails)
    (failures : ∀ failure next, failed failure next → fails (.query failure) next) :
    (ofQuery query >>= rest).Ends memory answers fails := by
  have runs : (ofQuery query >>= rest : Inquiry β).run memory =
      (ExceptT.bindCont rest ((query.run memory).1.mapError ConditionError.query))
        (query.run memory).2 := rfl
  unfold Query.Ends at first
  unfold Ends
  rcases outcome : query.run memory with ⟨_ | answer, after⟩
  · rw [outcome] at first runs
    rw [runs]
    exact failures _ _ first
  · rw [outcome] at first runs
    rw [runs]
    exact later answer after first

/-- A question that starts with a computation. -/
theorem ends_lift_bind {first : Except ConditionError α} {rest : α → Inquiry β}
    (later : ∀ answer, first = .ok answer → (rest answer).Ends memory answers fails)
    (failures : ∀ failure, first = .error failure → fails failure memory) :
    (liftM first >>= rest : Inquiry β).Ends memory answers fails := by
  cases first with
  | ok answer => exact later answer rfl
  | error failure => exact failures failure rfl

end Ends

end Inquiry

namespace Condition

theorem ofFormula_ok {f : Formula} {condition : Condition} (built : ofFormula f = .ok condition) :
    condition.formula = f ∧ f.toClause = .ok condition.clause := by
  unfold ofFormula at built
  cases written : f.toClause with
  | error failure => rw [written] at built; cases built
  | ok clause =>
    rw [written] at built
    cases built
    exact ⟨rfl, rfl⟩

/-- The conditions that can be built. -/
inductive Built : Condition → Prop where
  | ofClause {clause : Clause} {condition : Condition}
      (compiled : Condition.ofClause clause = .ok condition) : Built condition
  | ofFormula {formula : Formula} {condition : Condition}
      (written : Condition.ofFormula formula = .ok condition) : Built condition
  | constant (value : Bool) : Built (Condition.constant value)
  | both {left right : Condition} : Built left → Built right → Built (left.both right)
  | either {left right : Condition} : Built left → Built right → Built (left.either right)
  | negate {condition : Condition} : Built condition → Built condition.negate
  | implies {left right : Condition} : Built left → Built right → Built (left.implies right)

/-- The formula of a condition has no synthetic variables. -/
theorem Built.isGround {condition : Condition} (built : condition.Built) :
    condition.formula.IsGround := by
  induction built with
  | @ofClause clause condition compiled =>
    unfold Condition.ofClause at compiled
    cases result : clause.compile with
    | error failure => rw [result] at compiled; cases compiled
    | ok f =>
      rw [result] at compiled
      cases compiled
      exact clause.isGround_compile f result
  | ofFormula written =>
    obtain ⟨rfl, isWritten⟩ := ofFormula_ok written
    exact Formula.isGround_of_toClause isWritten
  | constant value => exact Formula.mentionsOnly_constant value
  | both _ _ left right =>
    exact (Formula.mentionsOnly_allOf _).mpr (Formula.mentionsOnly_pair left right)
  | either _ _ left right =>
    exact (Formula.mentionsOnly_anyOf _).mpr (Formula.mentionsOnly_pair left right)
  | negate _ operand => exact operand
  | implies _ _ left right => exact (Formula.mentionsOnly_implies _ _).mpr ⟨left, right⟩

end Condition

namespace Database

variable {db : Database} {root : Formula}

/-- Every requirement in the database has a formula. -/
def Compiles (db : Database) : Prop :=
  ∀ term clause, db.Requires term clause → ∃ f, clause.compile = .ok f

theorem Compiles.from (compiles : db.Compiles) (root : Formula) : db.CompilesFrom root :=
  fun term clause _ => compiles term clause

/-- Expanding a formula without synthetic variables adds none. -/
theorem isGround_expand (ground : root.IsGround) {f : Formula} (expanded : db.expand root = .ok f) :
    f.IsGround :=
  hereditary_expand (Formula.hereditary_mentionsOnly _) ground
    (fun _ reaches => (Formula.mentionsOnly_atom _).mpr (isFree_of_reaches ground reaches))
    (fun _ _ => (Formula.mentionsOnly_atom _).mpr rfl)
    (fun _ clause f _ _ compiled => clause.isGround_compile f compiled) expanded

theorem exists_expand (compiles : db.CompilesFrom root) (ground : root.IsGround) :
    ∃ f, db.expand root = .ok f ∧ f.IsGround := by
  obtain ⟨_, _, _, derived, isDerived, _⟩ := derive_spec compiles
  have expanded : db.expand root = .ok (Formula.allOf (root :: derived)) := by
    rw [expand, isDerived]
    rfl
  exact ⟨_, expanded, isGround_expand ground expanded⟩

/-- A configuration that satisfies a formula and respects it is a valuation of its expansion. -/
theorem satisfiable_expand {config : FullConfig} (respects : config.Respects db root)
    (compiles : db.CompilesFrom root) (ground : root.IsGround)
    (satisfies : root.verdict config.evaluate = .yes) {f : Formula}
    (expanded : db.expand root = .ok f) : f.Satisfiable := by
  obtain ⟨derived, isDerived, holds⟩ := respects.holds_derived compiles
  rw [expand, isDerived] at expanded
  cases expanded
  refine ⟨config.valuation, ?_⟩
  rw [Formula.holds_allOf, List.all_cons, Bool.and_eq_true, List.all_eq_true]
  exact ⟨(FullConfig.verdict_eq_yes_iff respects.fixed ground).mp satisfies, holds⟩

/-- The expansion of a plain formula is satisfiable if a legal configuration satisfies it. -/
theorem satisfiable_expand_iff (ground : root.IsGround) (plain : db.PlainFrom root) {f : Formula}
    (expanded : db.expand root = .ok f) :
    f.Satisfiable ↔ ∃ config : FullConfig, config.Ordered ∧ config.LegalVersions db ∧
      root.verdict config.evaluate = .yes := by
  constructor
  · rintro ⟨valuation, truth⟩
    obtain ⟨config, ordered, legal, satisfies⟩ := exists_legal_of_holds ground plain expanded truth
    exact ⟨config, ordered, legal.toLegalVersions, satisfies⟩
  · rintro ⟨config, _, legal, satisfies⟩
    exact satisfiable_expand (legal.respects plain.noParameter) plain.compiles ground satisfies
      expanded

/-- What two formulas lead to together, one of them leads to. -/
theorem reaches_pair {left right : Formula}
    (occurrences : root.occurrences = left.occurrences ++ right.occurrences) {term : Term}
    (reaches : db.Reaches root term) : db.Reaches left term ∨ db.Reaches right term := by
  induction reaches with
  | root occurs =>
    rw [occurrences, List.mem_append] at occurs
    exact occurs.imp .root .root
  | requirement _ requires compiled occurs ih =>
    exact ih.imp (.requirement · requires compiled occurs) (.requirement · requires compiled occurs)
  | admitted _ isRange listed accepted ih =>
    exact ih.imp (.admitted · isRange listed accepted) (.admitted · isRange listed accepted)

theorem PlainFrom.pair {left right : Formula} (plainLeft : db.PlainFrom left)
    (plainRight : db.PlainFrom right)
    (occurrences : root.occurrences = left.occurrences ++ right.occurrences) :
    db.PlainFrom root where
  compiles term clause reaches requires :=
    (reaches_pair occurrences reaches).elim (plainLeft.compiles term clause · requires)
      (plainRight.compiles term clause · requires)
  noParameter param reaches :=
    (reaches_pair occurrences reaches).elim (plainLeft.noParameter param)
      (plainRight.noParameter param)

end Database

theorem Formula.IsGround.numberedBelow {f : Formula} (ground : f.IsGround) (next : Nat) :
    f.MentionsOnly (Term.NumberedBelow next) := by
  rintro term occurs number rfl
  cases ground _ occurs

/-- The engine is ready for the expansion of a formula. -/
def Engine.ReadyFor (engine : Engine) (memory : Memory) (db : Database) (root : Formula) : Prop :=
  ∀ f, db.expand root = .ok f → engine.Ready memory f

namespace Condition

section Answers

variable {engine : Engine} {memory : Memory} {db : Database}

/-- A condition is satisfiable if its expansion is. -/
theorem answers_satisfiable {condition : Condition} (ground : condition.formula.IsGround)
    (compiles : db.CompilesFrom condition.formula)
    (ready : engine.ReadyFor memory db condition.formula) :
    (condition.satisfiable engine db).Answers memory fun verdict =>
      ∃ f, db.expand condition.formula = .ok f ∧ (verdict = true ↔ f.Satisfiable) := by
  obtain ⟨f, expanded, groundF⟩ := Database.exists_expand compiles ground
  obtain ⟨verdict, next, runs, exact⟩ :=
    ((ready f expanded).satisfiable (groundF.numberedBelow _)).exists
  refine ⟨verdict, next, ?_, f, expanded, exact⟩
  exact (Inquiry.run_lift_bind expanded _).trans (Inquiry.run_ofQuery runs)

/-- A formula never holds if its expansion is not satisfiable. -/
theorem answers_neverHolds {root : Formula} (ground : root.IsGround)
    (compiles : db.CompilesFrom root) (ready : engine.ReadyFor memory db root) :
    (neverHolds engine db root).Answers memory fun verdict =>
      ∃ f, db.expand root = .ok f ∧ (verdict = true ↔ ¬ f.Satisfiable) := by
  obtain ⟨f, expanded, groundF⟩ := Database.exists_expand compiles ground
  obtain ⟨verdict, next, runs, exact⟩ :=
    ((ready f expanded).unsatisfiable (groundF.numberedBelow _)).exists
  refine ⟨verdict, next, ?_, f, expanded, exact⟩
  exact (Inquiry.run_lift_bind expanded _).trans (Inquiry.run_ofQuery runs)

end Answers

section Pairs

variable {left right : Formula}

/-- The formula that says that one formula holds without the other. -/
abbrev without (left right : Formula) : Formula := Formula.allOf [left, .neg right]

/-- The formula that says that one of two formulas holds and not both. -/
abbrev differ (left right : Formula) : Formula := Formula.oneOf [left, right]

theorem isGround_without (groundLeft : left.IsGround) (groundRight : right.IsGround) :
    (without left right).IsGround :=
  (Formula.mentionsOnly_allOf _).mpr
    (Formula.mentionsOnly_pair groundLeft ((Formula.mentionsOnly_neg right).mpr groundRight))

theorem isGround_differ (groundLeft : left.IsGround) (groundRight : right.IsGround) :
    (differ left right).IsGround :=
  (Formula.mentionsOnly_oneOf _).mpr (Formula.mentionsOnly_pair groundLeft groundRight)

variable {config : FullConfig}

theorem verdict_without (fixed : config.xlen.isSome = true) (groundLeft : left.IsGround)
    (groundRight : right.IsGround) :
    (without left right).verdict config.evaluate = .yes ↔
      left.verdict config.evaluate = .yes ∧ ¬ right.verdict config.evaluate = .yes := by
  rw [FullConfig.verdict_eq_yes_iff fixed (isGround_without groundLeft groundRight),
    FullConfig.verdict_eq_yes_iff fixed groundLeft, FullConfig.verdict_eq_yes_iff fixed groundRight]
  simp [without]

theorem verdict_differ (fixed : config.xlen.isSome = true) (groundLeft : left.IsGround)
    (groundRight : right.IsGround) :
    (differ left right).verdict config.evaluate = .yes ↔
      left.verdict config.evaluate ≠ right.verdict config.evaluate := by
  rw [FullConfig.verdict_eq_yes_iff fixed (isGround_differ groundLeft groundRight),
    FullConfig.verdict_evaluate fixed groundLeft, FullConfig.verdict_evaluate fixed groundRight]
  cases atLeft : left.holds config.valuation <;> cases atRight : right.holds config.valuation <;>
    simp [differ, atLeft, atRight, Verdict.ofBool]

end Pairs

/-- Expansion never rules out a legal configuration: everything it derives is true under one,
and no answer about conditions contradicts one. -/
theorem expansion_admits_legal {db : Database} (compiles : db.Compiles) :
    (∀ (root : Formula) (config : FullConfig), config.Legal db → ∃ derived,
      db.derive root = .ok derived ∧ ∀ f ∈ derived, f.holds config.valuation = true) ∧
    ∀ (engine : Engine) (memory : Memory),
      (∀ condition : Condition, condition.Built → engine.ReadyFor memory db condition.formula →
        (condition.satisfiable engine db).Answers memory fun verdict =>
          ∀ config : FullConfig, config.Legal db →
            condition.satisfiedBy db (.fully config) = .yes → verdict = true) ∧
      (∀ left right : Condition, left.Built → right.Built →
        engine.ReadyFor memory db (without left.formula right.formula) →
        (alwaysImplies engine db left right).Answers memory fun verdict => verdict = true →
          ∀ config : FullConfig, config.Legal db → left.satisfiedBy db (.fully config) = .yes →
            right.satisfiedBy db (.fully config) = .yes) ∧
      ∀ left right : Condition, left.Built → right.Built →
        engine.ReadyFor memory db (differ left.formula right.formula) →
        (equivalent engine db left right).Answers memory fun verdict => verdict = true →
          ∀ config : FullConfig, config.Legal db →
            left.satisfiedBy db (.fully config) = right.satisfiedBy db (.fully config) := by
  refine ⟨fun root config legal => (legal.respects root).holds_derived (compiles.from root),
    fun engine memory => ⟨fun condition built ready => ?_, fun left right builtLeft builtRight ready => ?_,
      fun left right builtLeft builtRight ready => ?_⟩⟩
  · refine (answers_satisfiable built.isGround (compiles.from _) ready).mono ?_
    rintro verdict ⟨f, expanded, exact⟩ config legal satisfies
    exact exact.mpr
      (Database.satisfiable_expand (legal.respects _) (compiles.from _) built.isGround satisfies expanded)
  · have ground := isGround_without builtLeft.isGround builtRight.isGround
    refine (answers_neverHolds ground (compiles.from _) ready).mono ?_
    rintro verdict ⟨f, expanded, exact⟩ isTrue config legal satisfies
    refine Decidable.not_not.mp fun fails => exact.mp isTrue ?_
    exact Database.satisfiable_expand (legal.respects _) (compiles.from _) ground
      ((verdict_without legal.fixed builtLeft.isGround builtRight.isGround).mpr ⟨satisfies, fails⟩)
      expanded
  · have ground := isGround_differ builtLeft.isGround builtRight.isGround
    refine (answers_neverHolds ground (compiles.from _) ready).mono ?_
    rintro verdict ⟨f, expanded, exact⟩ isTrue config legal
    refine Decidable.not_not.mp fun disagree => exact.mp isTrue ?_
    exact Database.satisfiable_expand (legal.respects _) (compiles.from _) ground
      ((verdict_differ legal.fixed builtLeft.isGround builtRight.isGround).mpr disagree) expanded

/-- A version that requires another extension, and a parameter that requires the version. -/
theorem expansion_admits_legal_chain :
    let one : Version := { major := 1, minor := 0, patch := 0 }
    let db : Database := {
      extensions := [("A", [(one, some (.extension "B" none))]), ("B", [(one, none)])]
      parameters := [("P", .extension "A" none)] }
    let config : FullConfig := {
      extensions := [("A", one), ("B", one)]
      params := [("P", .int 3)]
      xlen := some .rv64 }
    let condition : Condition := {
      clause := .extension "A" none
      formula := .atom (.extension (.any "A")) }
    db.Compiles ∧ config.Legal db ∧ condition.Built ∧
      condition.satisfiedBy db (.fully config) = .yes ∧
      (condition.satisfiable (Engine.inProcess {}) db).Answers {} (· = true) := by
  intro one db config condition
  have compiles : db.Compiles := by
    rintro term clause (required | required)
    · obtain ⟨known, inDatabase, listed⟩ :=
        Database.exists_releases (Database.mem_releases_of_requirement? required)
      simp only [db, List.mem_cons, Prod.mk.injEq, List.not_mem_nil, or_false] at inDatabase
      rcases inDatabase with ⟨_, rfl⟩ | ⟨_, rfl⟩
      · cases List.mem_singleton.mp listed
        exact ⟨_, rfl⟩
      · cases List.mem_singleton.mp listed
    · have member := mem_of_lookup? required
      simp only [db, List.mem_singleton, Prod.mk.injEq] at member
      rw [member.2]
      exact ⟨_, rfl⟩
  have meets : ∀ name, name = "A" ∨ name = "B" → config.Meets (.extension name none) := by
    rintro name (rfl | rfl) <;> exact ⟨_, rfl, by decide +kernel⟩
  have implemented : ∀ name version, lookup? name config.extensions = some version →
      (name = "A" ∨ name = "B") ∧ version = one := by
    intro name version found
    have member := mem_of_lookup? found
    simp only [config, List.mem_cons, Prod.mk.injEq, List.not_mem_nil, or_false] at member
    rcases member with ⟨rfl, rfl⟩ | ⟨rfl, rfl⟩
    · exact ⟨.inl rfl, rfl⟩
    · exact ⟨.inr rfl, rfl⟩
  have legal : config.Legal db := {
    fixed := rfl
    defined := fun name version found => by
      obtain ⟨rfl | rfl, rfl⟩ := implemented name version found <;> decide +kernel
    meetsVersion := fun name version clause found required => by
      obtain ⟨rfl | rfl, rfl⟩ := implemented name version found
      · cases required
        exact meets "B" (.inr rfl)
      · cases required
    meetsParameter := fun name value clause found required => by
      have member := mem_of_lookup? required
      simp only [db, List.mem_singleton, Prod.mk.injEq] at member
      rw [member.2]
      exact meets "A" (.inl rfl) }
  have compiled : Condition.ofClause (.extension "A" none) = .ok condition := rfl
  have built : condition.Built := .ofClause compiled
  have satisfies : condition.satisfiedBy db (.fully config) = .yes := by decide +kernel
  have ready : (Engine.inProcess {}).ReadyFor {} db condition.formula :=
    fun f _ => Engine.ready_initial (fun _ => rfl) f
  refine ⟨compiles, legal, built, satisfies, ?_⟩
  exact (((expansion_admits_legal compiles).2 (Engine.inProcess {}) {}).1 condition built ready).mono
    fun verdict holds => holds config legal satisfies

/-- Without parameters, expansion rules out everything but legal configurations: a valuation
of an expanded formula gives one, and the answers about conditions are exactly those about
legal configurations. -/
theorem expansion_complete (db : Database) :
    (∀ condition : Condition, condition.Built → db.PlainFrom condition.formula →
      ∃ f, db.expand condition.formula = .ok f ∧ ∀ valuation, f.holds valuation = true →
        ∃ config : FullConfig, config.Ordered ∧ config.Legal db ∧
          condition.satisfiedBy db (.fully config) = .yes) ∧
    ∀ (engine : Engine) (memory : Memory),
      (∀ condition : Condition, condition.Built → db.PlainFrom condition.formula →
        engine.ReadyFor memory db condition.formula →
        (condition.satisfiable engine db).Answers memory fun verdict => verdict = true ↔
          ∃ config : FullConfig, config.Ordered ∧ config.LegalVersions db ∧
            condition.satisfiedBy db (.fully config) = .yes) ∧
      (∀ left right : Condition, left.Built → right.Built → db.PlainFrom left.formula →
        db.PlainFrom right.formula →
        engine.ReadyFor memory db (without left.formula right.formula) →
        (alwaysImplies engine db left right).Answers memory fun verdict => verdict = true ↔
          ∀ config : FullConfig, config.Ordered → config.LegalVersions db →
            left.satisfiedBy db (.fully config) = .yes →
              right.satisfiedBy db (.fully config) = .yes) ∧
      ∀ left right : Condition, left.Built → right.Built → db.PlainFrom left.formula →
        db.PlainFrom right.formula →
        engine.ReadyFor memory db (differ left.formula right.formula) →
        (equivalent engine db left right).Answers memory fun verdict => verdict = true ↔
          ∀ config : FullConfig, config.Ordered → config.LegalVersions db →
            left.satisfiedBy db (.fully config) = right.satisfiedBy db (.fully config) := by
  refine ⟨fun condition built plain => ?_, fun engine memory =>
    ⟨fun condition built plain ready => ?_,
      fun left right builtLeft builtRight plainLeft plainRight ready => ?_,
      fun left right builtLeft builtRight plainLeft plainRight ready => ?_⟩⟩
  · obtain ⟨f, expanded, _⟩ := Database.exists_expand plain.compiles built.isGround
    exact ⟨f, expanded, fun valuation truth =>
      Database.exists_legal_of_holds built.isGround plain expanded truth⟩
  · refine (answers_satisfiable built.isGround plain.compiles ready).mono ?_
    rintro verdict ⟨f, expanded, exact⟩
    rw [exact, Database.satisfiable_expand_iff built.isGround plain expanded]
    rfl
  · have ground := isGround_without builtLeft.isGround builtRight.isGround
    have plain : db.PlainFrom (without left.formula right.formula) :=
      plainLeft.pair plainRight (by simp)
    refine (answers_neverHolds ground plain.compiles ready).mono ?_
    rintro verdict ⟨f, expanded, exact⟩
    rw [exact, Database.satisfiable_expand_iff ground plain expanded]
    constructor
    · intro none config ordered legal satisfies
      refine Decidable.not_not.mp fun fails => none ⟨config, ordered, legal, ?_⟩
      exact (verdict_without legal.fixed builtLeft.isGround builtRight.isGround).mpr ⟨satisfies, fails⟩
    · rintro each ⟨config, ordered, legal, holds⟩
      obtain ⟨satisfies, fails⟩ :=
        (verdict_without legal.fixed builtLeft.isGround builtRight.isGround).mp holds
      exact fails (each config ordered legal satisfies)
  · have ground := isGround_differ builtLeft.isGround builtRight.isGround
    have plain : db.PlainFrom (differ left.formula right.formula) :=
      plainLeft.pair plainRight (by simp)
    refine (answers_neverHolds ground plain.compiles ready).mono ?_
    rintro verdict ⟨f, expanded, exact⟩
    rw [exact, Database.satisfiable_expand_iff ground plain expanded]
    constructor
    · intro none config ordered legal
      refine Decidable.not_not.mp fun disagree => none ⟨config, ordered, legal, ?_⟩
      exact (verdict_differ legal.fixed builtLeft.isGround builtRight.isGround).mpr disagree
    · rintro each ⟨config, ordered, legal, holds⟩
      exact (verdict_differ legal.fixed builtLeft.isGround builtRight.isGround).mp holds
        (each config ordered legal)

/-- Two extensions that require each other, and a version without requirements. -/
theorem expansion_complete_cyclic :
    let one : Version := { major := 1, minor := 0, patch := 0 }
    let two : Version := { major := 2, minor := 0, patch := 0 }
    let db : Database := {
      extensions := [("A", [(one, some (.extension "B" none))]),
        ("B", [(one, some (.extension "A" none)), (two, none)])] }
    let condition : Condition := {
      clause := .extension "A" none
      formula := .atom (.extension (.any "A")) }
    condition.Built ∧ db.PlainFrom condition.formula ∧
      (condition.satisfiable (Engine.inProcess {}) db).Answers {} fun verdict => verdict = true ↔
        ∃ config : FullConfig, config.Ordered ∧ config.LegalVersions db ∧
          condition.satisfiedBy db (.fully config) = .yes := by
  intro one two db condition
  have compiled : Condition.ofClause (.extension "A" none) = .ok condition := rfl
  have built : condition.Built := .ofClause compiled
  have requirements : ∀ term clause, db.Requires term clause →
      ∃ name, clause.compile = .ok (.atom (.extension (.any name))) := by
    rintro term clause (required | required)
    · obtain ⟨known, inDatabase, listed⟩ :=
        Database.exists_releases (Database.mem_releases_of_requirement? required)
      simp only [db, List.mem_cons, Prod.mk.injEq, List.not_mem_nil, or_false] at inDatabase
      rcases inDatabase with ⟨_, rfl⟩ | ⟨_, rfl⟩
      · cases List.mem_singleton.mp listed
        exact ⟨"B", rfl⟩
      · simp only [List.mem_cons, Prod.mk.injEq, Option.some.injEq, List.not_mem_nil, or_false,
          reduceCtorEq, and_false] at listed
        rw [listed.2]
        exact ⟨"A", rfl⟩
    · cases required
  have extensions : ∀ term, db.Reaches condition.formula term → ∃ ext, term = .extension ext := by
    intro term reaches
    cases reaches with
    | root occurs => exact ⟨_, List.mem_singleton.mp occurs⟩
    | requirement _ requires compiled occurs =>
      obtain ⟨name, isAny⟩ := requirements _ _ requires
      cases compiled.symm.trans isAny
      exact ⟨_, List.mem_singleton.mp occurs⟩
    | admitted _ _ _ _ => exact ⟨_, rfl⟩
  have plain : db.PlainFrom condition.formula := {
    compiles := fun term clause _ requires =>
      let ⟨_, compiled⟩ := requirements term clause requires
      ⟨_, compiled⟩
    noParameter := fun param reaches => nomatch extensions _ reaches }
  have ready : (Engine.inProcess {}).ReadyFor {} db condition.formula :=
    fun f _ => Engine.ready_initial (fun _ => rfl) f
  exact ⟨built, plain, ((expansion_complete db).2 (Engine.inProcess {}) {}).1 condition built plain ready⟩

end Condition

end IsaLogic
