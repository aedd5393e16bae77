import IsaLogic.Proofs.Condition.Explanation
import IsaLogic.Proofs.Condition.Implied
import IsaLogic.Proofs.Engine.Normal

/-!
# The clause of a condition means its formula

A condition keeps a clause and a formula side by side. Some operations make the formula from
the clause, some the clause from the formula, and some build both. However a condition is
obtained, its clause means its formula (`compile_eq_ok_formula`).

The invariant is that the formula is normal as well (`Agrees`), for only of normal formulas
is the clause a faithful text. Engines hand out what they remember, so the invariant of the
conditions needs one of the memories (`Memory.IsNormal`), and both are kept together.
-/

namespace IsaLogic

namespace Database

variable {db : Database} {root : Formula}

/-- The comparisons in the requirements have their alternatives in order. -/
def IsNormal (db : Database) : Prop := ∀ term clause, db.Requires term clause → clause.IsNormal

theorem isNormal_of_reaches (normal : db.IsNormal) (normalRoot : root.IsNormal) {term : Term}
    (reaches : db.Reaches root term) : term.IsNormal := by
  cases reaches with
  | root occurs => exact normalRoot.mentionsOnly term occurs
  | requirement _ requires compiled occurs =>
    exact ((normal _ _ requires).compile compiled).mentionsOnly term occurs
  | admitted _ _ _ _ => trivial

/-- The expansion of a normal formula in a normal database is normal. -/
theorem isNormal_expand (normal : db.IsNormal) (normalRoot : root.IsNormal) {f : Formula}
    (expanded : db.expand root = .ok f) : f.IsNormal :=
  hereditary_expand Formula.hereditary_isNormal normalRoot
    (fun _ reaches => .atom (isNormal_of_reaches normal normalRoot reaches))
    (fun _ _ => .atom trivial) (fun _ _ _ _ requires => (normal _ _ requires).compile) expanded

end Database

namespace Condition

/-- The clause means the formula, which is normal. -/
structure Agrees (condition : Condition) : Prop where
  compiled : condition.clause.compile = .ok condition.formula
  normal : condition.formula.IsNormal

section Agrees

variable {condition left right : Condition}

theorem agrees_ofClause {clause : Clause} (normal : clause.IsNormal)
    (built : ofClause clause = .ok condition) : condition.Agrees := by
  obtain ⟨f, compiled, rfl⟩ := exists_ok_of_map built
  exact ⟨compiled, normal.compile compiled⟩

/-- The clause that is written for a normal formula means it. -/
theorem agrees_ofFormula {f : Formula} (normal : f.IsNormal)
    (written : ofFormula f = .ok condition) : condition.Agrees := by
  obtain ⟨rfl, isClause⟩ := ofFormula_ok written
  obtain ⟨clause, isWritten, compiled⟩ := normal.compile_toClause
  cases isClause.symm.trans isWritten
  exact ⟨compiled, normal⟩

theorem agrees_constant (value : Bool) : (constant value).Agrees := ⟨rfl, .constant value⟩

theorem Agrees.both (agreesLeft : left.Agrees) (agreesRight : right.Agrees) :
    (left.both right).Agrees where
  compiled := by
    rw [Condition.both, Clause.compile, Clause.compileList, agreesLeft.compiled,
      Clause.compileList, agreesRight.compiled]
    rfl
  normal := Formula.hereditary_isNormal.allOf
    (Formula.isNormal_pair agreesLeft.normal agreesRight.normal)

theorem Agrees.either (agreesLeft : left.Agrees) (agreesRight : right.Agrees) :
    (left.either right).Agrees where
  compiled := by
    rw [Condition.either, Clause.compile, Clause.compileList, agreesLeft.compiled,
      Clause.compileList, agreesRight.compiled]
    rfl
  normal := Formula.hereditary_isNormal.anyOf
    (Formula.isNormal_pair agreesLeft.normal agreesRight.normal)

theorem Agrees.negate (agrees : condition.Agrees) : condition.negate.Agrees where
  compiled := by
    rw [Condition.negate, Clause.compile, agrees.compiled]
    rfl
  normal := .neg agrees.normal

theorem Agrees.implies (agreesLeft : left.Agrees) (agreesRight : right.Agrees) :
    (left.implies right).Agrees where
  compiled := by
    rw [Condition.implies, Clause.compile, agreesLeft.compiled, agreesRight.compiled]
    rfl
  normal := .implies agreesLeft.normal agreesRight.normal

/-- What is left of a formula is normal, whatever is known of its terms. -/
theorem Agrees.settle (agrees : condition.Agrees) {known : Term → Verdict} {settled : Condition}
    (answer : condition.settle known = .ok settled) : settled.Agrees :=
  agrees_ofFormula (Formula.hereditary_isNormal.partialEvaluate known agrees.normal) answer

end Agrees

section Questions

variable {engine : Engine} {memory : Memory} {condition : Condition}

/-- The conditions of implied extensions agree, and the memory stays normal. -/
theorem ends_impliedExtensions_agrees (agrees : condition.Agrees) (known : memory.IsNormal)
    (positive : Bool) :
    (condition.impliedExtensions engine positive).Ends memory
      (fun entries next => (∀ entry ∈ entries, entry.condition.Agrees) ∧ next.IsNormal)
      fun _ next => next.IsNormal := by
  have small : (condition.smallClauses engine).Ends memory
      (fun clauses next => (∀ clause ∈ clauses, ∀ literal ∈ clause, literal.term.IsNormal) ∧
        next.IsNormal) fun _ next => next.IsNormal := by
    rw [smallClauses_eq]
    refine (Engine.ends_minimize_isNormal known agrees.normal .conjunctive).bind ?_
    rintro m next ⟨normal, knownNext⟩
    obtain ⟨clauses, answer⟩ := m.exists_readClauses
    rw [answer]
    refine ⟨fun clause member literal inside => ?_, knownNext⟩
    have isTerm := (Formula.spells_readClauses answer).terms clause member literal inside
    exact normal.mentionsOnly _ isTerm
  refine Inquiry.ends_ofQuery_bind small (fun clauses next ⟨normal, knownNext⟩ => ?_)
    fun _ _ => id
  refine Inquiry.ends_lift_bind (fun found forced => ?_) fun _ _ => knownNext
  refine ⟨fun entry member => ?_, knownNext⟩
  obtain ⟨clause, isClause, place, _, isResidual⟩ := exists_clause_of_mem forced member
  refine agrees_ofFormula ?_ isResidual
  refine Formula.hereditary_isNormal.allOf (List.forall_mem_map.mpr fun other isOther => ?_)
  exact Formula.isNormal_toFormula (normal clause isClause other (List.mem_of_mem_eraseIdx isOther))

/-- The conditions of an explanation agree, and the memory stays normal. -/
theorem ends_explainUnsatisfiable_agrees {db : Database} (normal : db.IsNormal)
    (agrees : condition.Agrees) (known : memory.IsNormal) :
    (condition.explainUnsatisfiable engine db).Ends memory
      (fun conditions next => (∀ condition ∈ conditions, condition.Agrees) ∧ next.IsNormal)
      fun _ next => next.IsNormal := by
  refine Inquiry.ends_lift_bind (fun f expanded => ?_) fun _ _ => known
  have normalExpansion := Database.isNormal_expand normal agrees.normal expanded
  refine Inquiry.ends_ofQuery_bind (Engine.ends_cores_isNormal known normalExpansion) ?_
    fun _ _ => id
  rintro cores next ⟨normalCores, knownNext⟩
  cases written : cores.mapM ofFormula with
  | error failure => exact knownNext
  | ok conditions =>
    refine ⟨fun condition member => ?_, knownNext⟩
    obtain ⟨core, isCore, isCondition⟩ := (mem_of_mapM written).mp member
    exact agrees_ofFormula (normalCores core isCore) isCondition

end Questions

mutual

/-- The conditions that finitely many steps obtain: from clauses, by the connectives, by partial
evaluation, and from the answers of engines. -/
inductive Obtained : Condition → Prop where
  | ofClause {clause : Clause} {condition : Condition} (normal : clause.IsNormal)
      (built : Condition.ofClause clause = .ok condition) : Obtained condition
  | parsed {text : String} {clause : Clause} {condition : Condition}
      (read : Clause.parse text = .ok clause)
      (built : Condition.ofClause clause = .ok condition) : Obtained condition
  | constant (value : Bool) : Obtained (Condition.constant value)
  | both {left right : Condition} : Obtained left → Obtained right → Obtained (left.both right)
  | either {left right : Condition} : Obtained left → Obtained right → Obtained (left.either right)
  | negate {condition : Condition} : Obtained condition → Obtained condition.negate
  | implies {left right : Condition} :
      Obtained left → Obtained right → Obtained (left.implies right)
  | partiallyEvaluated {condition settled : Condition} {db : Database} {config : Configuration}
      (source : Obtained condition) (answer : condition.partiallyEvaluate db config = .ok settled) :
      Obtained settled
  | forParams {condition settled : Condition} {params : List (String × ParamValue)}
      (source : Obtained condition)
      (answer : condition.partiallyEvaluateForParams params = .ok settled) : Obtained settled
  | implied {condition : Condition} {engine : Engine} {memory next : Memory} {positive : Bool}
      {entries : List ConditionalExtension} {entry : ConditionalExtension}
      (source : Obtained condition) (reached : Reached engine memory)
      (answer : (condition.impliedExtensions engine positive).run memory = (.ok entries, next))
      (member : entry ∈ entries) : Obtained entry.condition
  | explained {condition explanation : Condition} {engine : Engine} {db : Database}
      {memory next : Memory} {conditions : List Condition} (normal : db.IsNormal)
      (source : Obtained condition) (reached : Reached engine memory)
      (answer : (condition.explainUnsatisfiable engine db).run memory = (.ok conditions, next))
      (member : explanation ∈ conditions) : Obtained explanation

/-- The memories that an engine reaches by questions about such conditions, whether it answers or
fails. Deciding satisfiability may concern any tree. -/
inductive Reached : Engine → Memory → Prop where
  | initial (engine : Engine) : Reached engine {}
  | implied {condition : Condition} {engine : Engine} {memory : Memory} (positive : Bool)
      (source : Obtained condition) (reached : Reached engine memory) :
      Reached engine ((condition.impliedExtensions engine positive).run memory).2
  | explained {condition : Condition} {engine : Engine} {db : Database} {memory : Memory}
      (normal : db.IsNormal) (source : Obtained condition) (reached : Reached engine memory) :
      Reached engine ((condition.explainUnsatisfiable engine db).run memory).2
  | decided {engine : Engine} {memory : Memory} (tree : Tree) (reached : Reached engine memory) :
      Reached engine ((engine.satisfiable tree).run memory).2
  | reset {engine : Engine} {memory : Memory} (reached : Reached engine memory) :
      Reached engine (Query.reset.run memory).2

end

mutual

/-- One case for each step: the clause means the formula, which stays normal. -/
theorem Obtained.agrees : ∀ {condition : Condition}, Obtained condition → condition.Agrees
  | _, .ofClause normal built => agrees_ofClause normal built
  | _, .parsed read built => agrees_ofClause (Clause.isNormal_parse read) built
  | _, .constant value => agrees_constant value
  | _, .both left right => left.agrees.both right.agrees
  | _, .either left right => left.agrees.either right.agrees
  | _, .negate operand => operand.agrees.negate
  | _, .implies left right => left.agrees.implies right.agrees
  | _, .partiallyEvaluated source answer => source.agrees.settle answer
  | _, .forParams source answer => source.agrees.settle answer
  | _, .implied source reached answer member =>
    ((ends_impliedExtensions_agrees source.agrees reached.isNormal _).answered answer).1 _ member
  | _, .explained normal source reached answer member =>
    ((ends_explainUnsatisfiable_agrees normal source.agrees reached.isNormal).answered answer).1 _
      member

/-- One case for each question: small forms and cores in the cache stay normal. -/
theorem Reached.isNormal : ∀ {engine : Engine} {memory : Memory}, Reached engine memory →
    memory.IsNormal
  | _, _, .initial _ => Memory.IsNormal.initial
  | _, _, .implied positive source reached =>
    ((ends_impliedExtensions_agrees source.agrees reached.isNormal positive).mono
      (fun _ _ => And.right) fun _ _ => id).after
  | _, _, .explained normal source reached =>
    ((ends_explainUnsatisfiable_agrees normal source.agrees reached.isNormal).mono
      (fun _ _ => And.right) fun _ _ => id).after
  | engine, _, .decided tree reached =>
    reached.isNormal.of_tables <| (Engine.keeps_satisfiable engine tree
      (fun cache => (cache.minimized, cache.cores)) fun _ _ _ _ => rfl).run _
  | _, _, .reset _ => ⟨nofun, nofun⟩

end

/-- The clause of a condition means its formula, however the condition was obtained. -/
theorem compile_eq_ok_formula {condition : Condition} (obtained : condition.Obtained) :
    condition.clause.compile = .ok condition.formula :=
  obtained.agrees.compiled

/-- A condition that was read, and what it requires where it does not hold: the version in the
derived clause is spelled out, and the single alternative is no longer a conjunction. -/
theorem compile_eq_ok_formula_respelled :
    let text :=
      "\x7b\"if\": \x7b\"extension\": \x7b\"name\": \"A\", \"version\": \">= 1.0\"\x7d\x7d, " ++
      "\"then\": \x7b\"allOf\": [\x7b\"extension\": \x7b\"name\": \"B\"\x7d\x7d]\x7d\x7d"
    let atLeastOne : ExtensionTerm :=
      { name := "A", op := .ge, version := { major := 1, minor := 0, patch := 0 } }
    let parsed : Condition :=
      { clause := .ifThen (.extension "A" (some ">= 1.0")) (.allOf [.extension "B" none])
        formula := .implies (.atom (.extension atLeastOne)) (.atom (.extension (.any "B"))) }
    let whenRequired : Condition :=
      { clause := .extension "A" (some ">= 1.0.0"), formula := .atom (.extension atLeastOne) }
    let last := parsed.both whenRequired.negate
    Clause.parse text = .ok parsed.clause ∧ ofClause parsed.clause = .ok parsed ∧
      (parsed.impliedExtensions (Engine.inProcess {}) true).run {} =
        (.ok [{ extension := .any "B", condition := whenRequired }], {}) ∧
      last.Obtained ∧ last.clause.compile = .ok last.formula := by
  intro text atLeastOne parsed whenRequired last
  have read : Clause.parse text = .ok parsed.clause := by
    unfold text
    cbv
  have built : ofClause parsed.clause = .ok parsed := by cbv
  have answer : (parsed.impliedExtensions (Engine.inProcess {}) true).run {} =
      (.ok [{ extension := .any "B", condition := whenRequired }], {}) := by cbv
  have source : parsed.Obtained := .parsed read built
  have obtained : last.Obtained :=
    source.both (.negate (.implied source (.initial _) answer (List.mem_singleton.mpr rfl)))
  exact ⟨read, built, answer, obtained, compile_eq_ok_formula obtained⟩

end Condition

end IsaLogic
