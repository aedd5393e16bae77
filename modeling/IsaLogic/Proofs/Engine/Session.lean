import Mathlib
import IsaLogic.Engine.Session
import IsaLogic.Proofs.Engine.Transparency
import IsaLogic.Proofs.Formula.Fingerprint

/-!
# Caches are invisible

A session with one engine is consistent if the engine's memory is true and faithful and
every tree has notes of its own. A call answers from such a session as it does with nothing
to remember (`step_call`), and each step leads to such a session again, so this holds along
every run (`run_consistent`). Whatever was asked before, in whatever order, an answer is the
one that an engine with an empty cache gives.

Collisions of fingerprints are excluded by the one assumption that SHA-256 has none among
the messages hashed for the formulas held and for what deletion may ask of them.
-/

namespace IsaLogic

/-- The questions whose answers a cache may hold, and forgetting the answers. -/
inductive EngineCall where
  | satisfiable
  | minimize (form : TwoLevel)
  | cores
  | reset

namespace EngineCall

/-- A call about the tree at a place. -/
def about : EngineCall → Nat → EngineStep
  | satisfiable, place => .satisfiable place
  | minimize form, place => .minimize place form
  | cores, place => .cores place
  | reset, _ => .reset

/-- The answer to a call about a formula, with nothing to remember. -/
def answer (engine : Engine) (f : Formula) : EngineCall → Except QueryError EngineAnswer
  | satisfiable => .ok (.verdict f.satisfiableByEnumeration)
  | minimize form => (engine.minimized form f).map .formula
  | cores => (engine.diagnosis f).map .formulas
  | reset => .ok .nothing

end EngineCall

/-- A step is a call or builds a tree with the formula of another one. -/
inductive EngineStep.CallsOrRebuilds : EngineStep → Prop where
  | call (call : EngineCall) (place : Nat) : CallsOrRebuilds (call.about place)
  | rebuild (place : Nat) : CallsOrRebuilds (.rebuild place)

/-- The formulas whose fingerprints a call about a formula may need: the formula, and what deletion
may ask. -/
def Limits.questions (limits : Limits) (f : Formula) : List Formula :=
  let units := Units.ofFormula limits.cnfExplosionLimit f
  f :: if units.whole.isEmpty then [] else units.formulas.sublists.map Formula.allOf

theorem Limits.mem_questions_self (limits : Limits) (f : Formula) : f ∈ limits.questions f :=
  List.mem_cons_self ..

theorem Limits.mem_questions_of_asks {limits : Limits} {f question : Formula}
    (asks : (Units.ofFormula limits.cnfExplosionLimit f).Asks question) :
    question ∈ limits.questions f := by
  obtain ⟨someWhole, chosen, sub, rfl⟩ := asks
  refine List.mem_cons_of_mem _ ?_
  rw [if_neg (mt List.isEmpty_iff.mp someWhole)]
  exact List.mem_map_of_mem (List.mem_sublists.mpr sub)

namespace Session

/-- The formulas whose fingerprints calls in a session may need. A place without a tree counts as
the true formula. -/
def questions (limits : Limits) (session : Session) : List Formula :=
  (Formula.verum :: session.trees.map Tree.formula).flatMap limits.questions

/-- Take steps with the first engine, one after the other. -/
def run (session : Session) : List EngineStep → Session
  | [] => session
  | step :: steps => (session.step 0 step).2.2.run steps

/-- The session has one engine, in process. What the engine remembers is true and faithful, and the
trees have notes of their own and no synthetic variables yet to be numbered. -/
structure Consistent (limits : Limits) (asked held : List Formula) (cache : Cache)
    (session : Session) : Prop where
  engines : session.engines = [(Engine.inProcess limits, cache)]
  truthful : Memory.Truthful Formula.fingerprint asked held { session.memory with cache }
  faithful : (Engine.inProcess limits).Faithful asked { session.memory with cache }
  known : ∀ tree ∈ session.trees, tree.Known held
  numbered : ∀ tree ∈ session.trees,
    tree.formula.MentionsOnly (Term.NumberedBelow session.memory.nextFree)

/-- A session with one engine, in process, whose cache is empty. -/
def Fresh (limits : Limits) (session : Session) : Prop :=
  ∃ held, session.Consistent limits [] held {}

variable {limits : Limits} {asked held : List Formula} {cache : Cache} {session : Session}

theorem Fresh.consistent (fresh : session.Fresh limits) (asked : List Formula) :
    ∃ held, session.Consistent limits asked held {} := by
  obtain ⟨held, engines, truthful, _, known, numbered⟩ := fresh
  exact ⟨held, engines, truthful.asking asked (List.nil_subset _), .of_empty rfl, known, numbered⟩

/-- Every place has a tree with notes of its own, at least that of the true formula. -/
theorem Consistent.tree (consistent : session.Consistent limits asked held cache) (place : Nat) :
    (session.tree place).Known held ∧
      (session.formula place).MentionsOnly (Term.NumberedBelow session.memory.nextFree) := by
  unfold formula Session.tree
  cases inside : session.trees[place]? with
  | none => exact ⟨Tree.known_passing held _, by simp [Tree.passing]⟩
  | some tree =>
    have member := List.mem_of_getElem? inside
    exact ⟨consistent.known tree member, consistent.numbered tree member⟩

/-- What a step makes of a session with one engine. -/
theorem step_of_gives {engine : Engine} {step : EngineStep}
    {outcome : Except QueryError (EngineAnswer × Option Tree)} {after : Memory → Prop}
    (engines : session.engines = [(engine, cache)])
    (gives : (session.ask engine step).Gives { session.memory with cache } outcome after) :
    (session.step 0 step).1 = outcome.map Prod.fst ∧ ∃ next, after next ∧
      (session.step 0 step).2.2 =
        { engines := [(engine, next.cache)]
          trees := session.trees ++ (outcome.toOption.bind Prod.snd).toList
          memory := next } := by
  obtain ⟨isOutcome, holds⟩ := gives.run
  unfold Session.step
  rw [engines]
  dsimp only [List.getElem?_cons_zero, List.set_cons_zero] at isOutcome holds ⊢
  generalize (session.ask engine step).run _ = ends at isOutcome holds ⊢
  obtain ⟨ended, next⟩ := ends
  subst isOutcome
  cases ended with
  | ok answer => exact ⟨rfl, next, holds, rfl⟩
  | error failure => exact ⟨rfl, next, holds, by simp [Except.toOption]⟩

/-- A call is answered as with nothing to remember, and the session stays consistent. -/
theorem step_call (consistent : session.Consistent limits asked held cache)
    (distinct : CollisionFree Formula.fingerprint asked) (call : EngineCall) (place : Nat)
    (asks : limits.questions (session.formula place) ⊆ asked) :
    (session.step 0 (call.about place)).1 =
        call.answer (Engine.inProcess limits) (session.formula place) ∧
      (session.step 0 (call.about place)).2.2.trees = session.trees ∧
      ∃ held cache, (session.step 0 (call.about place)).2.2.Consistent limits asked held cache := by
  obtain ⟨engines, truthful, faithful, known, numbered⟩ := id consistent
  obtain ⟨knownTree, numberedTree⟩ := consistent.tree place
  have isAsked := asks (limits.mem_questions_self _)
  have twice : ∀ {α : Type} (outcome : Except QueryError α) (view : α → EngineAnswer),
      (outcome.map view).map (fun answer => (answer, (none : Option Tree))) =
        outcome.map fun found => (view found, none) := by
    intro α outcome view
    cases outcome <;> rfl
  have nothingNew : ∀ outcome : Except QueryError EngineAnswer,
      (outcome.map fun answer => (answer, (none : Option Tree))).map Prod.fst = outcome ∧
        ((outcome.map fun answer => (answer, (none : Option Tree))).toOption.bind Prod.snd).toList =
          [] := by
    intro outcome
    cases outcome <;> exact ⟨rfl, rfl⟩
  have gives : (session.ask (Engine.inProcess limits) (call.about place)).Gives
      { session.memory with cache }
      ((call.answer (Engine.inProcess limits) (session.formula place)).map fun answer =>
        (answer, none))
      ((Engine.inProcess limits).Stays asked held { session.memory with cache }) := by
    cases call with
    | satisfiable =>
      exact (Engine.gives_satisfiable truthful faithful distinct (fun _ => rfl) knownTree
        numberedTree isAsked).map _
    | minimize form =>
      rw [EngineCall.answer, twice]
      exact (Engine.gives_minimize truthful faithful distinct (fun _ => rfl) form isAsked).map _
    | cores =>
      rw [EngineCall.answer, twice]
      exact (Engine.gives_cores truthful faithful distinct (fun _ => rfl) isAsked
        (fun question asksIt => asks (Limits.mem_questions_of_asks asksIt)) numberedTree).map _
    | reset =>
      refine ⟨rfl, Memory.Truthful.after ?_ (Nat.le_refl _), .of_empty rfl⟩
      exact ⟨truthful.counted, truthful.notes, nofun, nofun⟩
  obtain ⟨answered, next, ⟨⟨counts, later, grown, truthfulNext⟩, faithfulNext⟩, sameSession⟩ :=
    step_of_gives engines gives
  rw [(nothingNew _).1] at answered
  rw [(nothingNew _).2, List.append_nil] at sameSession
  rw [sameSession]
  refine ⟨answered, rfl, later, next.cache, rfl, truthfulNext, faithfulNext, ?_, ?_⟩
  · exact fun tree member => (known tree member).mono grown
  · exact fun tree member term occurs => (numbered tree member term occurs).mono counts

/-- Building a tree anew keeps the session consistent. -/
theorem step_rebuild (consistent : session.Consistent limits asked held cache) (place : Nat) :
    (∃ tree : Tree, tree.formula = session.formula place ∧
      (session.step 0 (.rebuild place)).2.2.trees = session.trees ++ [tree]) ∧
    ∃ held cache, (session.step 0 (.rebuild place)).2.2.Consistent limits asked held cache := by
  obtain ⟨engines, truthful, faithful, known, numbered⟩ := id consistent
  obtain ⟨tree, next, holds, isFormula, sameNext, later, grown, knownTree, truthfulNext⟩ :=
    (Query.answers_hold truthful (session.formula place)).exists
  have sameCache : next.cache = cache := by
    have keeps := Query.keeps_hold (session.formula place) { session.memory with cache }
    unfold Query.Ends at keeps
    rwa [holds] at keeps
  have gives : (Query.hold (session.formula place)).Gives { session.memory with cache } (.ok tree)
      (· = next) := by
    unfold Query.Gives Query.Ends
    rw [holds]
    exact ⟨rfl, rfl⟩
  have asked : (session.ask (Engine.inProcess limits) (.rebuild place)).Gives
      { session.memory with cache } (.ok (.place session.trees.length, some tree)) (· = next) :=
    gives.map _
  obtain ⟨-, _, isNext, stepped⟩ := step_of_gives engines asked
  rw [isNext] at stepped
  rw [stepped]
  refine ⟨⟨tree, isFormula, rfl⟩, later, _, rfl, truthfulNext, ?_, ?_, ?_⟩
  · exact faithful.of_tables (congrArg Cache.minimized sameCache) (congrArg Cache.cores sameCache)
  · intro other member
    rcases List.mem_append.mp member with before | isTree
    · exact (known other before).mono grown
    · rwa [List.mem_singleton.mp isTree]
  · intro other member
    have sameNumbers : next.nextFree = session.memory.nextFree := sameNext
    rw [sameNumbers]
    rcases List.mem_append.mp member with before | isTree
    · exact numbered other before
    · rw [List.mem_singleton.mp isTree, isFormula]
      exact (consistent.tree place).2

/-- Every formula of a session is the formula of a place in another one. -/
def FormulasFrom (session other : Session) : Prop :=
  ∀ place, ∃ first, session.formula place = other.formula first

theorem formulasFrom_of_trees_eq {next : Session} (same : next.trees = session.trees) :
    next.FormulasFrom session := by
  intro place
  exact ⟨place, by unfold formula tree; rw [same]⟩

theorem formulasFrom_of_trees_append {next : Session} {tree : Tree} {place : Nat}
    (isFormula : tree.formula = session.formula place)
    (added : next.trees = session.trees ++ [tree]) : next.FormulasFrom session := by
  intro other
  by_cases before : other < session.trees.length
  · refine ⟨other, ?_⟩
    unfold formula Session.tree
    rw [added, List.getElem?_append_left before]
  · by_cases last : other = session.trees.length
    · refine ⟨place, ?_⟩
      rw [← isFormula, formula, Session.tree, added, last]
      simp
    · refine ⟨session.trees.length, ?_⟩
      unfold formula Session.tree
      rw [added, List.getElem?_eq_none (by simp; omega), List.getElem?_eq_none (Nat.le_refl _)]

theorem questions_subset (limits : Limits) (session : Session) (place : Nat) :
    limits.questions (session.formula place) ⊆ session.questions limits := by
  intro question member
  refine List.mem_flatMap.mpr ⟨session.formula place, ?_, member⟩
  unfold formula Session.tree
  cases inside : session.trees[place]? with
  | none => exact List.mem_cons_self ..
  | some tree => exact List.mem_cons_of_mem _ (List.mem_map_of_mem (List.mem_of_getElem? inside))

/-- Along every run of calls and rebuildings, the session stays consistent and has no other
formulas than those it started with. -/
theorem run_consistent (distinct : CollisionFree Formula.fingerprint asked)
    (asks : ∀ place, limits.questions (session.formula place) ⊆ asked)
    (consistent : session.Consistent limits asked held cache) {steps : List EngineStep}
    (each : ∀ step ∈ steps, step.CallsOrRebuilds) :
    (session.run steps).FormulasFrom session ∧
      ∃ held cache, (session.run steps).Consistent limits asked held cache := by
  induction steps generalizing session held cache with
  | nil => exact ⟨fun place => ⟨place, rfl⟩, held, cache, consistent⟩
  | cons step steps ih =>
    have stepped : (session.step 0 step).2.2.FormulasFrom session ∧
        ∃ held cache, (session.step 0 step).2.2.Consistent limits asked held cache := by
      cases each step (List.mem_cons_self ..) with
      | call call place =>
        obtain ⟨-, sameTrees, consistentNext⟩ :=
          step_call consistent distinct call place (asks place)
        exact ⟨formulasFrom_of_trees_eq sameTrees, consistentNext⟩
      | rebuild place =>
        obtain ⟨⟨tree, isFormula, added⟩, consistentNext⟩ := step_rebuild consistent place
        exact ⟨formulasFrom_of_trees_append isFormula added, consistentNext⟩
    obtain ⟨fromSession, heldNext, cacheNext, consistentNext⟩ := stepped
    obtain ⟨fromNext, consistentLast⟩ := ih
      (fun place => by
        obtain ⟨first, same⟩ := fromSession place
        rw [same]
        exact asks first)
      consistentNext (fun step member => each step (List.mem_cons_of_mem _ member))
    refine ⟨fun place => ?_, consistentLast⟩
    obtain ⟨middle, sameNext⟩ := fromNext place
    obtain ⟨first, same⟩ := fromSession middle
    exact ⟨first, sameNext.trans same⟩

/-- The cache is invisible: after any calls and rebuildings, each call is answered as an engine
with the same limits and an empty cache answers it, on any tree with the same formula. -/
theorem answer_eq_fresh {limits : Limits} {session : Session} (fresh : session.Fresh limits)
    (injective : Set.InjOn Sha256.digest
      (Formula.hashedFor Sha256.digest { f | f ∈ session.questions limits }))
    {steps : List EngineStep} (each : ∀ step ∈ steps, step.CallsOrRebuilds)
    (call : EngineCall) (place : Nat) {alone : Session} (freshAlone : alone.Fresh limits)
    {other : Nat} (same : alone.formula other = (session.run steps).formula place) :
    ((session.run steps).step 0 (call.about place)).1 = (alone.step 0 (call.about other)).1 := by
  have distinct : CollisionFree Formula.fingerprint (session.questions limits) :=
    fun f isF g isG collides => Formula.injOn_fingerprint injective isF isG collides
  obtain ⟨held, consistent⟩ := fresh.consistent (session.questions limits)
  obtain ⟨fromSession, heldLast, cache, consistentLast⟩ :=
    run_consistent distinct (questions_subset limits session) consistent each
  obtain ⟨first, sameFirst⟩ := fromSession place
  have asks : limits.questions ((session.run steps).formula place) ⊆ session.questions limits := by
    rw [sameFirst]
    exact questions_subset limits session first
  obtain ⟨heldAlone, consistentAlone⟩ := freshAlone.consistent (session.questions limits)
  rw [(step_call consistentLast distinct call place asks).1,
    (step_call consistentAlone distinct call other (same ▸ asks)).1, same]

/-- Holding on to some formulas, one after the other. -/
theorem answers_mapM_hold {fingerprint : Formula → Bytes} {memory : Memory}
    (truthful : memory.Truthful fingerprint asked held) (formulas : List Formula) :
    (formulas.mapM Query.hold).Answers memory fun trees next =>
      trees.map Tree.formula = formulas ∧ next.nextFree = memory.nextFree ∧
        ∃ later, held <+: later ∧ (∀ tree ∈ trees, tree.Known later) ∧
          next.Truthful fingerprint asked later := by
  induction formulas generalizing held memory with
  | nil => exact ⟨rfl, rfl, held, List.prefix_refl held, nofun, truthful⟩
  | cons f formulas ih =>
    rw [List.mapM_cons]
    refine (Query.answers_hold truthful f).bind ?_
    rintro tree next ⟨rfl, sameNext, later, grown, known, truthfulNext⟩
    refine (ih truthfulNext).bind ?_
    rintro trees last ⟨rfl, sameLast, latest, grownMore, knownLatest, truthfulLast⟩
    refine Query.ends_pure ⟨rfl, sameLast.trans sameNext, latest, grown.trans grownMore, ?_,
      truthfulLast⟩
    exact List.forall_mem_cons.mpr ⟨known.mono grownMore, knownLatest⟩

/-- A session starts fresh, if no formula has a synthetic variable. -/
theorem fresh_start {formulas : List Formula}
    (ground : ∀ f ∈ formulas, f.MentionsOnly (Term.NumberedBelow 0)) :
    (start [Engine.inProcess limits] formulas).Fresh limits := by
  obtain ⟨trees, next, ends, rfl, sameNext, later, -, known, truthful⟩ :=
    (answers_mapM_hold (.initial Formula.fingerprint []) formulas).exists
  have started : start [Engine.inProcess limits] (trees.map Tree.formula) =
      { engines := [(Engine.inProcess limits, {})], trees, memory := next } := by
    unfold start
    dsimp only
    rw [ends]
    rfl
  rw [started]
  refine ⟨later, rfl, ?_, .of_empty rfl, known, fun tree member => ?_⟩
  · exact ⟨truthful.counted, truthful.notes, nofun, nofun⟩
  · rw [sameNext]
    exact ground _ (List.mem_map_of_mem member)

/-- The engine that may not enumerate anything decides a width, sees it rebuilt, and is asked again,
so that the second answer is in its cache. -/
theorem answer_eq_fresh_rebuilt :
    let limits : Limits := { bruteForceMaxTerms := 0 }
    let session := start [Engine.inProcess limits] [Formula.narrow]
    let steps := [EngineStep.satisfiable 0, .rebuild 0]
    ((session.run steps).step 0 (.satisfiable 1)).1 = (session.step 0 (.satisfiable 0)).1 := by
  intro limits session steps
  have fresh : session.Fresh limits := fresh_start (by simp [Formula.narrow, Term.NumberedBelow])
  have same : session.formula 0 = (session.run steps).formula 1 := by decide +kernel
  have each : ∀ step ∈ steps, step.CallsOrRebuilds := by
    simp only [steps, List.forall_mem_cons]
    exact ⟨.call .satisfiable 0, .rebuild 0, by simp⟩
  have questions : session.questions limits = [Formula.verum, Formula.narrow] := by decide +kernel
  have injective : Set.InjOn Sha256.digest
      (Formula.hashedFor Sha256.digest { f | f ∈ session.questions limits }) := by
    rw [questions]
    refine Formula.injOn_narrow.mono ?_
    rintro message ⟨f, member, part⟩
    exact ⟨f, List.mem_append_left [Formula.narrow.neg] member, part⟩
  exact answer_eq_fresh fresh injective each .satisfiable 1 fresh same

end Session

end IsaLogic
