import IsaLogic.Condition.Basic
import IsaLogic.Formula.Operation

/-!
# Sessions about conditions

One engine and one database answer questions about a growing list of conditions,
also under a list of configurations.
-/

namespace IsaLogic

/-- A step of a session. Conditions and configurations are named by their places. -/
inductive ConditionStep where
  | satisfiable (condition : Nat)
  | unsatisfiable (condition : Nat)
  | equivalent (left right : Nat)
  | alwaysImplies (left right : Nat)
  | satisfiedBy (condition config : Nat)
  | requirements (condition : Nat)
  | conflicts (condition : Nat)
  | explain (condition : Nat)
  | expanded (condition : Nat)
  | output (condition : Nat)
  | reset
  | pushConstant (value : Bool)
  | pushBoth (left right : Nat)
  | pushEither (left right : Nat)
  | pushImplies (left right : Nat)
  | pushNegated (condition : Nat)
  | pushPartial (condition config : Nat)
  | pushForParams (condition : Nat) (params : List (String × ParamValue))
  | pushApplied (condition : Nat) (operation : Operation)
  | pushExpanded (condition : Nat)

/-- How a condition is written. -/
structure ConditionText where
  declarative : Json
  prose : String
  linkedProse : String

/-- The answer to a step. -/
inductive ConditionAnswer where
  | nothing
  | truth (value : Bool)
  | verdict (value : Verdict)
  | extensions (list : List ConditionalExtension)
  | condition (condition : Condition)
  | conditions (list : List Condition)
  | formula (formula : Formula)
  | text (text : ConditionText)

/-- Conditions, configurations, and the engine and database that they are about. -/
structure ConditionSession where
  engine : Engine
  db : Database
  configs : List Configuration := []
  conditions : List Condition := []
  memory : Memory := {}

namespace ConditionSession

/-- The condition at a place. -/
def condition (session : ConditionSession) (place : Nat) : Condition :=
  (session.conditions[place]?).getD (Condition.constant true)

/-- The configuration at a place. -/
def config (session : ConditionSession) (place : Nat) : Configuration :=
  (session.configs[place]?).getD .unconfigured

/-- What a step asks: its answer, and the condition that is added. -/
def ask (session : ConditionSession) :
    ConditionStep → Inquiry (ConditionAnswer × Option Condition)
  | .satisfiable place => do
    return (.truth (← (session.condition place).satisfiable session.engine session.db), none)
  | .unsatisfiable place => do
    return (.truth (← (session.condition place).unsatisfiable session.engine session.db), none)
  | .equivalent left right => do
    let answer ← (session.condition left).equivalent session.engine session.db
      (session.condition right)
    return (.truth answer, none)
  | .alwaysImplies left right => do
    let answer ← (session.condition left).alwaysImplies session.engine session.db
      (session.condition right)
    return (.truth answer, none)
  | .satisfiedBy place config =>
    return (.verdict
      ((session.condition place).satisfiedBy session.db (session.config config)), none)
  | .requirements place => do
    return (.extensions (← (session.condition place).impliedExtensions session.engine true), none)
  | .conflicts place => do
    return (.extensions (← (session.condition place).impliedExtensions session.engine false), none)
  | .explain place => do
    let answer ← (session.condition place).explainUnsatisfiable session.engine session.db
    return (.conditions answer, none)
  | .expanded place => do
    return (.formula (← liftM ((session.condition place).expanded session.db)), none)
  | .output place => do
    let condition := session.condition place
    return (.text {
      declarative := ← liftM condition.toJson
      prose := condition.formula.prose
      linkedProse := condition.formula.linkedProse }, none)
  | .reset => do
    Inquiry.ofQuery Query.reset
    return (.nothing, none)
  | .pushConstant value => added (.constant value)
  | .pushBoth left right => added ((session.condition left).both (session.condition right))
  | .pushEither left right => added ((session.condition left).either (session.condition right))
  | .pushImplies left right => added ((session.condition left).implies (session.condition right))
  | .pushNegated place => added (session.condition place).negate
  | .pushPartial place config => do
    added (← liftM
      ((session.condition place).partiallyEvaluate session.db (session.config config)))
  | .pushForParams place params => do
    added (← liftM ((session.condition place).partiallyEvaluateForParams params))
  | .pushApplied place operation => do
    let memory ← get
    let outcome := operation.apply (session.condition place).formula memory.nextFree
    let (formula, next) ← liftM (outcome.mapError ConditionError.query)
    set { memory with nextFree := next }
    added (← liftM (Condition.ofFormula formula))
  | .pushExpanded place => do
    let formula ← liftM ((session.condition place).expanded session.db)
    added (← liftM (Condition.ofFormula formula))
where
  /-- Answer with a condition and add it. -/
  added (condition : Condition) : Inquiry (ConditionAnswer × Option Condition) :=
    return (.condition condition, some condition)

/-- Take a step. A step that fails adds no condition. -/
def step (session : ConditionSession) (step : ConditionStep) :
    Except ConditionError ConditionAnswer × ConditionSession :=
  let (outcome, memory) := (session.ask step).run session.memory
  let session := { session with memory }
  match outcome with
  | .ok (answer, new) =>
    (.ok answer, { session with conditions := session.conditions ++ new.toList })
  | .error error => (.error error, session)

end ConditionSession

end IsaLogic
