import IsaLogic.Engine.Diagnosis
import IsaLogic.Engine.Minimization
import IsaLogic.Formula.Operation

/-!
# Sessions with engines

Several engines answer questions about a growing list of held trees. Each engine
has a cache of its own; the notes on the trees are shared by all of them.
-/

namespace IsaLogic

/-- A step of a session. Trees are named by their places. -/
inductive EngineStep where
  | satisfiable (tree : Nat)
  | unsatisfiable (tree : Nat)
  | byEnumeration (tree : Nat)
  | bySolver (tree : Nat)
  | equivalent (left right : Nat)
  | alwaysImplies (left right : Nat)
  | equisatCnf (tree : Nat)
  | minimize (tree : Nat) (form : TwoLevel)
  | cores (tree : Nat)
  | statistics
  | reset
  /-- Hold another tree with the same formula. -/
  | rebuild (tree : Nat)
  | pushEquisatCnf (tree : Nat)
  | pushMinimized (tree : Nat) (form : TwoLevel)
  | pushConj (left right : Nat)
  | pushExactlyOne (left right : Nat)
  | pushImplies (left right : Nat)
  | pushApplied (tree : Nat) (operation : Operation)

/-- The answer to a step. -/
inductive EngineAnswer where
  | nothing
  | verdict (value : Bool)
  | formula (formula : Formula)
  | formulas (formulas : List Formula)
  /-- The place of a new tree. -/
  | place (number : Nat)

/-- Held trees, the engines with their caches, and what else is remembered. -/
structure Session where
  engines : List (Engine × Cache)
  trees : List Tree := []
  memory : Memory := {}

namespace Session

/-- Hold some formulas and set up engines with empty caches. -/
def start (engines : List Engine) (formulas : List Formula) : Session :=
  let held : Query (List Tree) := formulas.mapM Query.hold
  match held.run {} with
  | (outcome, memory) =>
    { engines := engines.map (·, {}), trees := outcome.toOption.getD [], memory }

/-- The tree at a place. -/
def tree (session : Session) (place : Nat) : Tree :=
  (session.trees[place]?).getD (Tree.passing Formula.verum)

/-- The formula at a place. -/
def formula (session : Session) (place : Nat) : Formula := (session.tree place).formula

/-- What a step asks of an engine: its answer, and the tree that is held from now on. -/
def ask (session : Session) (engine : Engine) : EngineStep → Query (EngineAnswer × Option Tree)
  | .satisfiable place => return (.verdict (← engine.satisfiable (session.tree place)), none)
  | .unsatisfiable place => return (.verdict (← engine.unsatisfiable (session.tree place)), none)
  | .byEnumeration place =>
    return (.verdict (session.formula place).satisfiableByEnumeration, none)
  | .bySolver place => return (.verdict (← engine.askSolver (session.tree place)), none)
  | .equivalent left right =>
    return (.verdict (← engine.equivalent (session.formula left) (session.formula right)), none)
  | .alwaysImplies left right =>
    return (.verdict (← engine.alwaysImplies (session.formula left) (session.formula right)), none)
  | .equisatCnf place => return (.formula (← engine.equisatCnf (session.tree place)).formula, none)
  | .minimize place form =>
    return (.formula (← engine.minimize form (session.formula place)), none)
  | .cores place => return (.formulas (← engine.cores (session.formula place)), none)
  | .statistics => return (.nothing, none)
  | .reset => do
    Query.reset
    return (.nothing, none)
  | .rebuild place => do
    return (.place session.trees.length, some (← Query.hold (session.formula place)))
  | .pushEquisatCnf place => do held (← engine.equisatCnf (session.tree place))
  | .pushMinimized place form => do
    held (← Query.hold (← engine.minimize form (session.formula place)))
  | .pushConj left right => do
    held (← Query.hold (Formula.allOf [session.formula left, session.formula right]))
  | .pushExactlyOne left right => do
    held (← Query.hold (Formula.oneOf [session.formula left, session.formula right]))
  | .pushImplies left right => do
    held (← Query.hold (.implies (session.formula left) (session.formula right)))
  | .pushApplied place operation => do
    let memory ← get
    let (formula, next) ← liftM (operation.apply (session.formula place) memory.nextFree)
    set { memory with nextFree := next }
    held (← Query.hold formula)
where
  /-- Answer with a tree and hold it. -/
  held (tree : Tree) : Query (EngineAnswer × Option Tree) :=
    return (.formula tree.formula, some tree)

/-- Take a step with the engine at a place. The cache is the one after the step. -/
def step (session : Session) (place : Nat) (step : EngineStep) :
    Except QueryError EngineAnswer × Cache × Session :=
  match session.engines[place]? with
  | none => (.ok .nothing, {}, session)
  | some (engine, cache) =>
    let (outcome, memory) := (session.ask engine step).run { session.memory with cache }
    let session := { session with
      engines := session.engines.set place (engine, memory.cache)
      memory }
    match outcome with
    | .ok (answer, held) =>
      (.ok answer, memory.cache, { session with trees := session.trees ++ held.toList })
    | .error error => (.error error, memory.cache, session)

end Session

end IsaLogic
