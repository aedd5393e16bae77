import IsaLogic.Engine.Session
import IsaLogic.Proofs.Cover.Exactness
import IsaLogic.Proofs.Cover.Irredundant
import IsaLogic.Proofs.Engine.Terms
import IsaLogic.Proofs.Formula.Flattening

/-!
# Minimized formulas are flat

What exact minimization and the minimizer in process find is flat, since their covers are of
different prime cubes. Only such forms are stored, so an answer from the cache is flat as well,
even one that was stored for another formula (`Cache.FlatForms`). Every step of a session
keeps this, with whichever engine it is taken.

A formula that is nested and reads each term once is only flattened, and stays as it is at
its leaves. If a constant is among them (`Limits.KeepsConstant`), its form is not flat, and this
is the one case in which minimization answers with a form that is not.
-/

namespace IsaLogic

/-- The small forms in the cache are flat. -/
def Cache.FlatForms (cache : Cache) : Prop :=
  ∀ entry ∈ cache.minimized, entry.2.isFlat entry.1.2 = true

/-- A question that leaves the small forms as they are keeps them flat. -/
theorem Query.Keeps.ends_flatForms {α : Type} {query : Query α} {memory : Memory}
    (keeps : query.Keeps fun memory => memory.cache.minimized) (known : memory.cache.FlatForms) :
    query.Ends memory (fun _ next => next.cache.FlatForms) fun _ next => next.cache.FlatForms := by
  have same : ∀ next : Memory, next.cache.minimized = memory.cache.minimized →
      next.cache.FlatForms := by
    intro next sameForms
    unfold Cache.FlatForms
    rw [sameForms]
    exact known
  exact (keeps memory).mono (fun _ => same) fun _ => same

/-- The formula is only flattened, and has a constant beside its terms. -/
def Limits.KeepsConstant (limits : Limits) (form : TwoLevel) (f : Formula) : Prop :=
  limits.exactMinimizeMaxTerms < f.terms.length ∧ f.isNested form = true ∧
    f.terms.length = f.occurrences.length ∧ f.HasConstant

namespace Engine

variable {engine : Engine} {form : TwoLevel} {f : Formula} {memory : Memory}

/-- A minimized cover has a flat form. -/
theorem isFlat_minimizeByCover (inProcess : engine.MinimizesInProcess) {m : Formula}
    (found : engine.minimizeByCover form f = .ok m) : m.isFlat form = true := by
  rcases engine.limits.inputCover_cases form f with ⟨cubes, built, given⟩ | ⟨_, failed, _⟩
  · cases (minimizeByCover_eq inProcess built given).symm.trans found
    have widths := given.describes.width
    obtain ⟨_, same⟩ := Cube.minimizeCover_spec widths
    refine Cube.isFlat_coverFormula given.describes_minimizeCover.width
      (Cube.irredundant_minimizeCover widths).1.nodup fun cube member => ?_
    exact (Cube.prime_of_mem_minimizeCover widths member).congr same
  · unfold minimizeByCover at found
    rw [failed] at found
    cases found

/-- Minimizing answers with a flat form unless a constant is kept, and stores flat forms only. -/
theorem ends_minimize_isFlat (inProcess : engine.MinimizesInProcess) (form : TwoLevel) (f : Formula)
    (known : memory.cache.FlatForms) :
    (engine.minimize form f).Ends memory
      (fun m next => (m.isFlat form = true ↔ ¬ engine.limits.KeepsConstant form f) ∧
        next.cache.FlatForms)
      fun failure next => engine.limits.TooLarge f failure ∧ next.cache.FlatForms := by
  unfold minimize
  dsimp only
  split
  · rename_i small
    refine Query.ends_pure ⟨?_, known⟩
    have keepsNone : ¬ engine.limits.KeepsConstant form f :=
      fun keeps => absurd keeps.1 (Nat.not_lt.mpr small)
    exact iff_of_true (f.isFlat_minimizeExact form) keepsNone
  · rename_i large
    split
    · rename_i readsOnce
      rw [Bool.and_eq_true, beq_iff_eq] at readsOnce
      obtain ⟨nested, once⟩ := readsOnce
      have someTerm : f.occurrences ≠ [] := by
        refine List.ne_nil_of_length_pos (once ▸ ?_)
        exact Nat.lt_of_le_of_lt (Nat.zero_le _) (Nat.lt_of_not_le large)
      refine Query.ends_pure ⟨?_, known⟩
      rw [Formula.isFlat_flatten_iff nested someTerm]
      exact not_congr ⟨fun has => ⟨Nat.lt_of_not_le large, nested, once, has⟩,
        fun keeps => keeps.2.2.2⟩
    · rename_i notOnce
      have keepsNone : ¬ engine.limits.KeepsConstant form f := by
        rintro ⟨_, nested, once, _⟩
        exact notOnce (by simp [nested, once])
      refine Query.ends_remembering (fun m stored => ?_) fun _ => ?_
      · -- Whatever formula it was stored for, the key has the requested form.
        exact ⟨iff_of_true (known _ (mem_of_lookup? stored)) keepsNone, known⟩
      · cases outcome : engine.minimizeByCover form f with
        | ok m =>
          have flat := isFlat_minimizeByCover inProcess outcome
          exact ⟨iff_of_true flat keepsNone, List.forall_mem_cons.mpr ⟨flat, known⟩⟩
        | error failure => exact ⟨tooLarge_of_minimizeByCover inProcess outcome, known⟩

/-- Diagnosing leaves the small forms in the cache as they are. -/
theorem keeps_cores (engine : Engine) (f : Formula) :
    (engine.cores f).Keeps fun memory => memory.cache.minimized := by
  have unsat : ∀ tree, (engine.unsatisfiable tree).Keeps fun memory => memory.cache.minimized :=
    fun tree => keeps_unsatisfiable engine tree Cache.minimized fun _ _ _ _ => rfl
  have diagnosing : (engine.diagnose f).Keeps fun memory => memory.cache.minimized := by
    unfold diagnose
    dsimp only
    split
    · exact Query.keeps_lift _
    · refine (unsat _).bind fun verdict => ?_
      split
      · have shrinking : ∀ kept left, (Core.shrinkFrom (fun places => engine.unsatisfiable
            (Tree.passing (conjoin (Units.ofFormula engine.limits.cnfExplosionLimit f).formulas
              places))) kept left).Keeps fun memory => memory.cache.minimized := by
          intro kept left memory
          exact ends_shrinkFrom (fun places middle same => ((unsat _) middle).mono
            (fun _ _ => same ▸ id) fun _ _ => same ▸ id) rfl
        exact (shrinking _ _).bind fun _ => Query.keeps_pure _
      · exact Query.keeps_pure _
  rw [cores_eq]
  exact Query.keeps_remembering diagnosing (fun _ _ _ => rfl) fun _ _ => rfl

end Engine

namespace Session

open Engine

variable {engine : Engine} {memory : Memory} {session : Session}

/-- Every engine minimizes in process, and the small forms in its cache are flat. -/
def FlatForms (session : Session) : Prop :=
  ∀ entry ∈ session.engines, entry.1.MinimizesInProcess ∧ entry.2.FlatForms

/-- Take steps, each with the engine at the place beside it. -/
def play (session : Session) : List (Nat × EngineStep) → Session
  | [] => session
  | (number, step) :: steps => (session.step number step).2.2.play steps

/-- Whatever is asked, the small forms in the cache stay flat. -/
theorem ends_ask_flatForms (inProcess : engine.MinimizesInProcess) (session : Session)
    (known : memory.cache.FlatForms) (step : EngineStep) :
    (session.ask engine step).Ends memory (fun _ next => next.cache.FlatForms)
      fun _ next => next.cache.FlatForms := by
  have deciding : ∀ tree, (engine.satisfiable tree).Keeps fun memory => memory.cache.minimized :=
    fun tree => keeps_satisfiable engine tree Cache.minimized fun _ _ _ _ => rfl
  have refuting : ∀ tree, (engine.unsatisfiable tree).Keeps fun memory => memory.cache.minimized :=
    fun tree => keeps_unsatisfiable engine tree Cache.minimized fun _ _ _ _ => rfl
  have encoding : ∀ tree, (engine.equisatCnf tree).Keeps fun memory => memory.cache.minimized :=
    fun tree => (keeps_equisatCnf engine tree).of_part Cache.minimized
  have holding : ∀ (f : Formula) {later : Tree → Query (EngineAnswer × Option Tree)},
      (∀ tree, (later tree).Keeps fun memory => memory.cache.minimized) →
      (Query.hold f >>= later).Keeps fun memory => memory.cache.minimized :=
    fun f _ => ((Query.keeps_hold f).of_part Cache.minimized).bind
  have minimizing : ∀ form f, (engine.minimize form f).Ends memory
      (fun _ next => next.cache.FlatForms) fun _ next => next.cache.FlatForms :=
    fun form f => (ends_minimize_isFlat inProcess form f known).mono (fun _ _ => And.right)
      fun _ _ => And.right
  cases step with
  | satisfiable place =>
    exact ((deciding _).bind fun _ => Query.keeps_pure _).ends_flatForms known
  | unsatisfiable place =>
    exact ((refuting _).bind fun _ => Query.keeps_pure _).ends_flatForms known
  | byEnumeration place => exact known
  | bySolver place =>
    have asking := (keeps_askSolver engine (session.tree place)).of_part Cache.minimized
    exact (asking.bind fun _ => Query.keeps_pure _).ends_flatForms known
  | equivalent left right =>
    have comparing : (engine.equivalent (session.formula left) (session.formula right)).Keeps
        fun memory => memory.cache.minimized := by
      unfold Engine.equivalent
      split
      · exact Query.keeps_pure _
      · exact refuting _
    exact (comparing.bind fun _ => Query.keeps_pure _).ends_flatForms known
  | alwaysImplies left right =>
    exact ((refuting _).bind fun _ => Query.keeps_pure _).ends_flatForms known
  | equisatCnf place | pushEquisatCnf place =>
    exact ((encoding _).bind fun _ => Query.keeps_pure _).ends_flatForms known
  | minimize place form => exact (minimizing form _).bind fun _ _ flat => Query.ends_pure flat
  | cores place =>
    exact ((keeps_cores engine _).bind fun _ => Query.keeps_pure _).ends_flatForms known
  | statistics => exact known
  | reset => exact nofun
  | rebuild place => exact (holding _ fun _ => Query.keeps_pure _).ends_flatForms known
  | pushMinimized place form =>
    refine (minimizing form _).bind fun m next flat => ?_
    exact (holding m fun _ => Query.keeps_pure _).ends_flatForms flat
  | pushConj left right | pushExactlyOne left right | pushImplies left right =>
    exact (holding _ fun _ => Query.keeps_pure _).ends_flatForms known
  | pushApplied place operation =>
    refine Query.ends_get_bind ?_
    cases operation.apply (session.formula place) memory.nextFree with
    | error failure => exact known
    | ok made =>
      have pushing : (Query.hold made.1 >>= ask.held).Keeps fun memory => memory.cache.minimized :=
        holding made.1 fun tree => Query.keeps_pure (EngineAnswer.formula tree.formula, some tree)
      have counted : Cache.FlatForms { memory with nextFree := made.2 }.cache := known
      exact pushing.ends_flatForms counted

/-- What a step with an engine makes of a session, by how the question to the engine ends. -/
theorem step_of_ends {number : Nat} {cache : Cache} {step : EngineStep}
    {answers : EngineAnswer × Option Tree → Memory → Prop} {fails : QueryError → Memory → Prop}
    (present : session.engines[number]? = some (engine, cache))
    (ends : (session.ask engine step).Ends { session.memory with cache } answers fails) :
    ∃ next, (session.step number step).2.2.engines =
        session.engines.set number (engine, next.cache) ∧
      ((∃ answer held, (session.step number step).1 = .ok answer ∧ answers (answer, held) next) ∨
        ∃ failure, (session.step number step).1 = .error failure ∧ fails failure next) := by
  unfold Query.Ends at ends
  unfold Session.step
  rw [present]
  dsimp only
  rcases outcome : (session.ask engine step).run { session.memory with cache } with
    ⟨failure | ⟨answer, held⟩, next⟩
  · rw [outcome] at ends
    exact ⟨next, rfl, .inr ⟨failure, rfl, ends⟩⟩
  · rw [outcome] at ends
    exact ⟨next, rfl, .inl ⟨answer, held, rfl, ends⟩⟩

/-- A step changes no engine but for its cache. -/
theorem map_engines_step (session : Session) (number : Nat) (step : EngineStep) :
    (session.step number step).2.2.engines.map Prod.fst = session.engines.map Prod.fst := by
  cases present : session.engines[number]? with
  | none =>
    unfold Session.step
    rw [present]
  | some entry =>
    have always : (session.ask entry.1 step).Ends { session.memory with cache := entry.2 }
        (fun _ _ => True) fun _ _ => True := by
      unfold Query.Ends
      split <;> trivial
    obtain ⟨next, engines, _⟩ := step_of_ends present always
    obtain ⟨inside, here⟩ := List.getElem?_eq_some_iff.mp present
    have isPlace : number < (session.engines.map Prod.fst).length := by simpa using inside
    have same : (session.engines.map Prod.fst)[number] = entry.1 := by rw [List.getElem_map, here]
    rw [engines, List.map_set, ← same, List.set_getElem_self]

theorem map_engines_play (session : Session) (steps : List (Nat × EngineStep)) :
    (session.play steps).engines.map Prod.fst = session.engines.map Prod.fst := by
  induction steps generalizing session with
  | nil => rfl
  | cons first steps ih => exact (ih _).trans (map_engines_step session first.1 first.2)

/-- A step keeps the small forms of all engines flat. -/
theorem FlatForms.step (flat : session.FlatForms) (number : Nat) (step : EngineStep) :
    (session.step number step).2.2.FlatForms := by
  cases present : session.engines[number]? with
  | none =>
    unfold Session.step
    rw [present]
    exact flat
  | some entry =>
    obtain ⟨inProcess, known⟩ := flat entry (List.mem_of_getElem? present)
    obtain ⟨next, engines, ended⟩ :=
      step_of_ends present (ends_ask_flatForms inProcess session known step)
    have knownNext : next.cache.FlatForms := by
      rcases ended with ⟨_, _, _, flatNext⟩ | ⟨_, _, flatNext⟩ <;> exact flatNext
    intro other member
    rw [engines] at member
    rcases List.mem_or_eq_of_mem_set member with before | rfl
    · exact flat other before
    · exact ⟨inProcess, knownNext⟩

/-- Along every run the small forms of all engines stay flat. -/
theorem FlatForms.play (flat : session.FlatForms) (steps : List (Nat × EngineStep)) :
    (session.play steps).FlatForms := by
  induction steps generalizing session with
  | nil => exact flat
  | cons first steps ih => exact ih (flat.step first.1 first.2)

theorem engines_start (engines : List Engine) (formulas : List Formula) :
    (start engines formulas).engines = engines.map (·, {}) := by
  unfold start
  rfl

theorem flatForms_start {engines : List Engine}
    (inProcess : ∀ engine ∈ engines, engine.MinimizesInProcess) (formulas : List Formula) :
    (start engines formulas).FlatForms := by
  intro entry member
  rw [engines_start] at member
  obtain ⟨engine, isEngine, rfl⟩ := List.mem_map.mp member
  exact ⟨inProcess engine isEngine, nofun⟩

/-- After any steps with engines that minimize in process, minimization answers with a formula
that is flat in the requested form, exactly unless a constant is kept; it fails only on a
formula that is too large. -/
theorem minimize_flat_iff {engines : List Engine}
    (inProcess : ∀ engine ∈ engines, engine.MinimizesInProcess) (formulas : List Formula)
    (steps : List (Nat × EngineStep)) {number : Nat} {engine : Engine}
    (isEngine : engines[number]? = some engine) (place : Nat) (form : TwoLevel) :
    let session := (start engines formulas).play steps
    (∃ m, (session.step number (.minimize place form)).1 = .ok (.formula m) ∧
      (m.isFlat form = true ↔
        ¬ engine.limits.KeepsConstant form (session.formula place))) ∨
    ∃ failure, (session.step number (.minimize place form)).1 = .error failure ∧
      engine.limits.TooLarge (session.formula place) failure := by
  intro session
  have flat : session.FlatForms := (flatForms_start inProcess formulas).play steps
  obtain ⟨cache, present⟩ : ∃ cache, session.engines[number]? = some (engine, cache) := by
    have same : session.engines.map Prod.fst = engines := by
      rw [map_engines_play, engines_start, List.map_map]
      exact List.map_id engines
    rw [← same, List.getElem?_map, Option.map_eq_some_iff] at isEngine
    obtain ⟨entry, present, rfl⟩ := isEngine
    exact ⟨entry.2, present⟩
  obtain ⟨isInProcess, known⟩ := flat _ (List.mem_of_getElem? present)
  have ends : (session.ask engine (.minimize place form)).Ends { session.memory with cache }
      (fun answer _ => ∃ m, answer.1 = .formula m ∧
        (m.isFlat form = true ↔ ¬ engine.limits.KeepsConstant form (session.formula place)))
      fun failure _ => engine.limits.TooLarge (session.formula place) failure := by
    refine ((ends_minimize_isFlat isInProcess form (session.formula place) known).mono
      (fun _ _ => And.left) fun _ _ => And.left).bind fun m _ flatForm => ?_
    exact Query.ends_pure ⟨m, rfl, flatForm⟩
  obtain ⟨_, _, ended⟩ := step_of_ends present ends
  rcases ended with ⟨answer, _, answered, m, isFormula, flatForm⟩ | ⟨failure, failed, large⟩
  · cases isFormula
    exact .inl ⟨m, answered, flatForm⟩
  · exact .inr ⟨failure, failed, large⟩

/-- The engine that minimizes nothing exactly finds a flat form of an alternative, and keeps the
constant of a conjunction that is built anew. -/
theorem minimize_flat_iff_rebuilt :
    let rv32 := Formula.atom (.xlen .rv32)
    let formulas := [Formula.exactlyOne [rv32, .atom (.xlen .rv64)], .conj [rv32, .verum]]
    let engine := Engine.inProcess { exactMinimizeMaxTerms := 0 }
    let session := (start [engine] formulas).play [(0, .rebuild 1)]
    (∃ m, (session.step 0 (.minimize 0 .conjunctive)).1 = .ok (.formula m) ∧ m.isCnf = true) ∧
      ∃ m, (session.step 0 (.minimize 2 .conjunctive)).1 = .ok (.formula m) ∧ m.isCnf = false := by
  intro rv32 formulas engine session
  have inProcess : ∀ other ∈ [engine], other.MinimizesInProcess := by
    intro other member
    cases List.mem_singleton.mp member
    exact fun _ => rfl
  have isEngine : [engine][0]? = some engine := rfl
  have after := minimize_flat_iff inProcess formulas [(0, .rebuild 1)] isEngine
  have first : session.formula 0 = .exactlyOne [rv32, .atom (.xlen .rv64)] := by
    unfold session engine formulas rv32
    cbv
  have last : session.formula 2 = .conj [rv32, .verum] := by
    unfold session engine formulas rv32
    cbv
  have small : ¬ min 16 24 < (Formula.exactlyOne [rv32, .atom (.xlen .rv64)]).terms.length ∧
      ¬ min 16 24 < (Formula.conj [rv32, .verum]).terms.length := by
    unfold rv32
    cbv
  constructor
  · obtain ⟨m, answered, flat⟩ | ⟨failure, _, large, _⟩ := after 0 .conjunctive
    · refine ⟨m, answered, flat.mpr ?_⟩
      rintro ⟨_, nested, _⟩
      rw [first] at nested
      cases nested
    · exact absurd (first ▸ large) small.1
  · obtain ⟨m, answered, flat⟩ | ⟨failure, _, large, _⟩ := after 2 .conjunctive
    · have once : (Formula.conj [rv32, .verum]).terms.length = 1 := by
        unfold rv32
        cbv
      have keeps : engine.limits.KeepsConstant .conjunctive (session.formula 2) := by
        rw [last]
        refine ⟨?_, rfl, once, .verum, ?_, rfl, fun term isTerm => ?_⟩
        · rw [once]
          exact Nat.zero_lt_one
        · exact .operand (List.mem_cons_of_mem _ (List.mem_singleton.mpr rfl)) (.self _)
        · cases isTerm
      exact ⟨m, answered, Bool.eq_false_iff.mpr fun isFlat => flat.mp isFlat keeps⟩
    · exact absurd (last ▸ large) small.2

/-- With the limits that are set from the start, a conjunction of five terms and the true constant
comes back as it is, and is no conjunctive form. -/
theorem minimize_keeps_constant :
    let named := fun name => Formula.atom (.extension
      { name, op := .eq, version := { major := 1, minor := 0, patch := 0 } })
    let f := Formula.conj (["A", "B", "C", "D", "E"].map named ++ [.verum])
    ((start [Engine.inProcess {}] [f]).step 0 (.minimize 0 .conjunctive)).1 = .ok (.formula f) ∧
      f.isCnf = false := by
  intro named f
  exact ⟨by cbv, by cbv⟩

end Session

end IsaLogic
