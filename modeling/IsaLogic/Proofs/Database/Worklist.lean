import Mathlib
import IsaLogic.Proofs.Database.Exploration

/-!
# The walk as a worklist

`Worklist.Step` is one step of a walk over terms: the first term of the queue is passed over if it
was visited before; otherwise it is visited, and what follows from it is queued. A step knows
nothing of a vocabulary. It cannot be repeated forever, from no state at all
(`Worklist.wellFounded_step`), and `explore`, which walks inside a vocabulary, ends where the steps
end (`Worklist.ends_explore`): the vocabulary holds nothing back.

What a step keeps (`Worklist.Keeps`) says what each visited term has contributed. Together with
what `Exploration` says of the visited terms this gives `explore_least_closed`: a walk visits the
least set of terms that is closed under what a database requires and admits.
-/

namespace IsaLogic

/-- The term that a formula contributed by a term is about. -/
def Formula.subject? : Formula → Option Term
  | .neg (.atom term) => some term
  | .implies (.atom term) _ => some term
  | .conj (.implies (.atom term) _ :: _) => some term
  | _ => none

namespace Database

variable {db : Database} {root : Formula}

/-- What a term contributes to the formulas, nothing where its requirement has no formula. -/
def contribution (db : Database) (term : Term) : List Formula :=
  match db.consequence term with
  | .ok c => c.derived
  | .error _ => []

theorem contribution_of_ok {term : Term} {c : Consequence} (found : db.consequence term = .ok c) :
    db.contribution term = c.derived := by
  rw [contribution, found]

/-- A term contributes at most one formula, and that is about it. -/
theorem contribution_cases (db : Database) (term : Term) :
    db.contribution term = [] ∨ ∃ f, db.contribution term = [f] ∧ f.subject? = some term := by
  cases found : db.consequence term with
  | error cause => exact .inl (by rw [contribution, found])
  | ok c =>
    rw [contribution_of_ok found]
    cases contributes_of_consequence found with
    | requirement _ _ => exact .inr ⟨_, rfl, rfl⟩
    | unlisted _ _ => exact .inr ⟨_, rfl, rfl⟩
    | unavailable _ _ => exact .inr ⟨_, rfl, rfl⟩
    | range _ => exact .inr ⟨_, rfl, rfl⟩
    | nothing _ _ => exact .inl rfl

/-- Distinct terms contribute distinct formulas. -/
theorem nodup_flatMap_contribution {visited : List Term} (distinct : visited.Nodup) :
    (visited.flatMap db.contribution).Nodup := by
  refine List.nodup_flatMap.mpr ⟨fun term _ => ?_, distinct.imp fun {term other} differ => ?_⟩
  · rcases db.contribution_cases term with none | ⟨f, one, _⟩
    · rw [none]
      exact List.nodup_nil
    · rw [one]
      exact List.nodup_singleton f
  · intro f here there
    refine differ ?_
    rcases db.contribution_cases term with none | ⟨g, one, about⟩
    · rw [none] at here
      cases here
    rcases db.contribution_cases other with none | ⟨h, oneOther, aboutOther⟩
    · rw [none] at there
      cases there
    rw [one, List.mem_singleton] at here
    rw [oneOther, List.mem_singleton] at there
    rw [← here] at about
    rw [← there] at aboutOther
    exact Option.some.inj (about.symm.trans aboutOther)

theorem mem_mentioned_of_next {term other : Term} {c : Consequence}
    (found : db.consequence term = .ok c) (next : other ∈ c.next) : other ∈ db.mentioned := by
  cases contributes_of_consequence found with
  | requirement requires compiled =>
    exact mem_mentioned_of_requires requires compiled (Formula.mem_terms.mp next)
  | range _ =>
    obtain ⟨version, listed, _, rfl⟩ := mem_admitted.mp next
    exact mem_mentioned_of_listed listed
  | _ => cases next

/-- A walk as it stands. -/
structure Worklist where
  found : Exploration
  queue : List Term

namespace Worklist

/-- A walk that is about to start. -/
def initial (root : Formula) : Worklist := { found := {}, queue := root.terms }

/-- One step of a walk. -/
inductive Step (db : Database) : Worklist → Worklist → Prop where
  | skip {found : Exploration} {term : Term} {queue : List Term} (old : term ∈ found.visited) :
      Step db { found, queue := term :: queue } { found, queue }
  | visit {found : Exploration} {term : Term} {queue : List Term} {c : Consequence}
      (new : term ∉ found.visited) (contributes : db.consequence term = .ok c) :
      Step db { found, queue := term :: queue } {
        found := { visited := found.visited ++ [term], derived := found.derived ++ c.derived }
        queue := queue ++ c.next }

/-- Any number of steps. -/
def Steps (db : Database) : Worklist → Worklist → Prop := Relation.ReflTransGen (Step db)

/-- Where the steps from a state end: the queue is empty, or the requirement of the first term in
it has no formula. -/
inductive Ends (db : Database) (start : Worklist) : Except ConditionError Exploration → Prop where
  | done {found : Exploration} (steps : Steps db start { found, queue := [] }) :
      Ends db start (.ok found)
  | stuck {found : Exploration} {term : Term} {queue : List Term} {cause : ConditionError}
      (steps : Steps db start { found, queue := term :: queue }) (new : term ∉ found.visited)
      (fails : db.consequence term = .error cause) : Ends db start (.error cause)

section Termination

/-- A vocabulary that a walk with some queue never leaves. -/
structure Confines (db : Database) (vocabulary queue : List Term) : Prop where
  mentioned : ∀ term ∈ db.mentioned, term ∈ vocabulary
  queued : ∀ term ∈ queue, term ∈ vocabulary

variable {vocabulary queue : List Term} {term : Term}

theorem Confines.tail (confines : Confines db vocabulary (term :: queue)) :
    Confines db vocabulary queue where
  mentioned := confines.mentioned
  queued other member := confines.queued other (List.mem_cons_of_mem _ member)

theorem Confines.next (confines : Confines db vocabulary (term :: queue)) {c : Consequence}
    (contributes : db.consequence term = .ok c) : Confines db vocabulary (queue ++ c.next) where
  mentioned := confines.mentioned
  queued other member := by
    rcases List.mem_append.mp member with later | next
    · exact confines.queued other (List.mem_cons_of_mem _ later)
    · exact confines.mentioned other (mem_mentioned_of_next contributes next)

/-- A term that a confined walk does not visit was visited before. -/
theorem Confines.visited {found : Exploration} (confines : Confines db vocabulary (term :: queue))
    (old : ¬ (term ∈ vocabulary ∧ term ∉ found.visited)) : term ∈ found.visited :=
  Decidable.not_not.mp fun new => old ⟨confines.queued term (List.mem_cons_self ..), new⟩

-- the recursion of `explore` carries the induction: each of its calls is one step
theorem acc_step (vocabulary : List Term) (found : Exploration) (queue : List Term)
    (confines : Confines db vocabulary queue) :
    Acc (fun after before => Step db before after) { found, queue } := by
  fun_induction explore db vocabulary found queue with
  | case1 found =>
    refine Acc.intro _ fun after step => ?_
    cases step
  | case2 found term queue new ih =>
    refine Acc.intro _ fun after step => ?_
    cases step with
    | skip old => exact absurd old new.2
    | visit _ contributes => exact ih _ (confines.next contributes)
  | case3 found term queue old ih =>
    refine Acc.intro _ fun after step => ?_
    cases step with
    | skip _ => exact ih confines.tail
    | visit new _ => exact absurd (confines.visited old) new

/-- No walk goes on forever, whatever it starts from. -/
theorem wellFounded_step (db : Database) :
    WellFounded fun after before => Step db before after := by
  refine ⟨fun state => acc_step (state.queue ++ db.mentioned) state.found state.queue ?_⟩
  exact ⟨fun _ => List.mem_append_right _, fun _ => List.mem_append_left _⟩

/-- The walk inside a vocabulary that confines it ends where the steps end. -/
theorem ends_explore {start : Worklist} (vocabulary : List Term) (found : Exploration)
    (queue : List Term) (confines : Confines db vocabulary queue)
    (steps : Steps db start { found, queue }) :
    Ends db start (db.explore vocabulary found queue) := by
  fun_induction explore db vocabulary found queue with
  | case1 found => exact .done steps
  | case2 found term queue new ih =>
    cases found' : db.consequence term with
    | error cause => exact .stuck steps new.2 found'
    | ok c => exact ih c (confines.next found') (steps.tail (.visit new.2 found'))
  | case3 found term queue old ih =>
    exact ih confines.tail (steps.tail (.skip (confines.visited old)))

end Termination

/-- What every step keeps: each visited term has contributed, in the order of the visits. -/
structure Keeps (db : Database) (found : Exploration) : Prop where
  succeeds : ∀ term ∈ found.visited, ∃ c, db.consequence term = .ok c
  derived : found.derived = found.visited.flatMap db.contribution

theorem Keeps.step {before after : Worklist} (keeps : Keeps db before.found)
    (step : Step db before after) : Keeps db after.found := by
  cases step with
  | skip _ => exact keeps
  | @visit found term _ c _ contributes =>
    constructor
    · intro other member
      rcases List.mem_append.mp member with visited | isTerm
      · exact keeps.succeeds other visited
      · exact ⟨c, List.mem_singleton.mp isTerm ▸ contributes⟩
    · rw [List.flatMap_append, ← keeps.derived, List.flatMap_singleton,
        contribution_of_ok contributes]

theorem Keeps.steps {before after : Worklist} (keeps : Keeps db before.found)
    (steps : Steps db before after) : Keeps db after.found := by
  induction steps with
  | refl => exact keeps
  | tail _ step ih => exact ih.step step

end Worklist

/-- A set of terms with what the database requires of its members and admits for them. -/
structure Closed (db : Database) (root : Formula) (terms : Set Term) : Prop where
  root : ∀ term ∈ root.occurrences, term ∈ terms
  version : ∀ {name version clause f}, .extension (.exact name version) ∈ terms →
    version ∈ db.versions name → db.requirement? name version = some clause →
      clause.compile = .ok f → ∀ term ∈ f.occurrences, term ∈ terms
  range : ∀ {range : ExtensionTerm}, .extension range ∈ terms → range.isExact = false →
    ∀ version ∈ db.versions range.name, range.accepts version = true →
      .extension (.exact range.name version) ∈ terms
  parameter : ∀ {param : ParamTerm} {clause f}, .parameter param ∈ terms →
    db.parameterRequirement? param.name = some clause → clause.compile = .ok f →
      ∀ term ∈ f.occurrences, term ∈ terms

/-- The terms that a formula leads to are the least closed set. -/
theorem isLeast_reaches (db : Database) (root : Formula) :
    IsLeast {terms | db.Closed root terms} {term | db.Reaches root term} := by
  constructor
  · exact {
      root := fun term occurs => .root occurs
      version := fun reached _ required compiled term occurs =>
        .requirement reached (.version required) compiled occurs
      range := fun reached isRange version listed accepted =>
        .admitted reached isRange listed accepted
      parameter := fun reached required compiled term occurs =>
        .requirement reached (.parameter required) compiled occurs }
  · intro terms closed term reaches
    induction reaches with
    | root occurs => exact closed.root _ occurs
    | requirement _ requires compiled occurs ih =>
      cases requires with
      | version required =>
        exact closed.version ih (mem_versions_of_requirement? required) required compiled _ occurs
      | parameter required => exact closed.parameter ih required compiled _ occurs
    | admitted _ isRange listed accepted ih => exact closed.range ih isRange _ listed accepted

section Walk

theorem Worklist.ends_initial (db : Database) (root : Formula) :
    Worklist.Ends db (.initial root) (db.explore (root.terms ++ db.mentioned) {} root.terms) :=
  Worklist.ends_explore _ _ _
    ⟨fun _ => List.mem_append_right _, fun _ => List.mem_append_left _⟩ .refl

/-- What a walk that succeeds keeps. -/
theorem keeps_of_explore {found : Exploration}
    (walked : db.explore (root.terms ++ db.mentioned) {} root.terms = .ok found) :
    Worklist.Keeps db found := by
  have ends := Worklist.ends_initial db root
  rw [walked] at ends
  cases ends with
  | done steps =>
    have start : Worklist.Keeps db (Worklist.initial root).found := ⟨nofun, rfl⟩
    exact start.steps steps

/-- A walk that succeeds visits the terms that its formula leads to, and no other. -/
theorem mem_visited_iff {found : Exploration}
    (walked : db.explore (root.terms ++ db.mentioned) {} root.terms = .ok found) {term : Term} :
    term ∈ found.visited ↔ db.Reaches root term := by
  have explored := (Explored.initial db root (root.terms ++ db.mentioned)).of_explore walked
  exact ⟨fun visited => explored.reached term (.inl visited),
    mem_visited_of_reaches explored (keeps_of_explore walked).succeeds⟩

/-- A walk succeeds exactly if every requirement that it meets has a formula. -/
theorem exists_explore_iff : db.CompilesFrom root ↔
    ∃ found, db.explore (root.terms ++ db.mentioned) {} root.terms = .ok found := by
  constructor
  · intro compiles
    obtain ⟨found, walked, _⟩ :=
      (Explored.initial db root (root.terms ++ db.mentioned)).explore compiles
    exact ⟨found, walked⟩
  · rintro ⟨found, walked⟩ term clause reaches requires
    obtain ⟨c, contributes⟩ :=
      (keeps_of_explore walked).succeeds term ((mem_visited_iff walked).mpr reaches)
    cases contributes_of_consequence contributes with
    | requirement requires' compiled => exact ⟨_, requires.unique requires' ▸ compiled⟩
    | unlisted _ missing =>
      cases requires with
      | version required => exact absurd (mem_versions_of_requirement? required) missing
    | unavailable isRange _ => cases requires with | version _ => cases isRange
    | range isRange => cases requires with | version _ => cases isRange
    | nothing unrequired _ => exact absurd requires (unrequired clause)

/-- An expansion succeeds only where every requirement that its formula leads to has a formula. -/
theorem compilesFrom_of_expand {f : Formula} (expanded : db.expand root = .ok f) :
    db.CompilesFrom root := by
  obtain ⟨derived, isDerived, _⟩ := exists_ok_of_bind expanded
  obtain ⟨found, walked, _⟩ := exists_ok_of_bind isDerived
  exact exists_explore_iff.mpr ⟨found, walked⟩

/-- What an expansion consists of. -/
theorem expand_spec {f : Formula} (expanded : db.expand root = .ok f) :
    ∃ visited : List Term, visited.Nodup ∧ (∀ term, term ∈ visited ↔ db.Reaches root term) ∧
      ∃ derived, f = Formula.allOf (root :: derived) ∧ ∀ g, g ∈ derived ↔
        (∃ term ∈ visited, ∃ c, db.consequence term = .ok c ∧ g ∈ c.derived) ∨
          g ∈ db.exclusions visited ∨ g ∈ relations visited ∨ g ∈ widths visited := by
  obtain ⟨visited, distinct, visits, derived, isDerived, members⟩ :=
    derive_spec (compilesFrom_of_expand expanded)
  rw [expand, isDerived] at expanded
  cases expanded
  exact ⟨visited, distinct, visits, derived, rfl, members⟩

/-- Exploring a database always ends, and where every requirement that is met has a formula, it
visits the least set of terms that contains those of the formula and is closed under what the
database requires and admits. Every term is visited once, and what it contributes is derived once,
in the order of the visits. -/
theorem explore_least_closed (db : Database) (root : Formula) :
    (WellFounded fun after before => Worklist.Step db before after) ∧
    Worklist.Ends db (.initial root) (db.explore (root.terms ++ db.mentioned) {} root.terms) ∧
    (db.CompilesFrom root → ∃ found : Exploration,
      db.explore (root.terms ++ db.mentioned) {} root.terms = .ok found ∧
      IsLeast {terms | db.Closed root terms} {term | term ∈ found.visited} ∧
      found.visited.Nodup ∧ found.derived = found.visited.flatMap db.contribution ∧
      ∀ term ∈ found.visited, ∀ f ∈ db.contribution term, found.derived.count f = 1) := by
  refine ⟨Worklist.wellFounded_step db, Worklist.ends_initial db root, fun compiles => ?_⟩
  obtain ⟨found, walked⟩ := exists_explore_iff.mp compiles
  have explored := (Explored.initial db root (root.terms ++ db.mentioned)).of_explore walked
  have keeps := keeps_of_explore walked
  have visits : {term | term ∈ found.visited} = {term | db.Reaches root term} :=
    Set.ext fun term => mem_visited_iff walked
  refine ⟨found, walked, visits ▸ isLeast_reaches db root, explored.nodup, keeps.derived, ?_⟩
  intro term visited f contributed
  rw [keeps.derived]
  exact List.count_eq_one_of_mem (nodup_flatMap_contribution explored.nodup)
    (List.mem_flatMap.mpr ⟨term, visited, contributed⟩)

/-- Two extensions that require each other, one of them by a range of versions, and a parameter
that requires itself. -/
theorem explore_least_closed_cyclic :
    let one : Version := { major := 1, minor := 0, patch := 0 }
    let two : Version := { major := 2, minor := 0, patch := 0 }
    let width : ParamTerm := .make "WIDTH" .value (.atLeast 32)
    let db : Database := {
      extensions := [("A", [(one, some (.extension "B" none))]),
        ("B", [(one, some (.extension "A" (some "= 1.0"))), (two, some (.param width))])]
      parameters := [("WIDTH", .param width)] }
    let root := Formula.atom (.extension (.exact "A" one))
    db.CompilesFrom root ∧ ∃ found : Exploration,
      db.explore (root.terms ++ db.mentioned) {} root.terms = .ok found ∧
      IsLeast {terms | db.Closed root terms} {term | term ∈ found.visited} ∧
      found.visited.length = 5 ∧ found.derived.length = 5 := by
  intro one two width db root
  have walked : ∃ found, db.explore (root.terms ++ db.mentioned) {} root.terms = .ok found ∧
      found.visited.length = 5 ∧ found.derived.length = 5 := by
    refine ⟨_, by cbv, ?_, ?_⟩
    all_goals rfl
  obtain ⟨found, walked, visits, derives⟩ := walked
  have compiles : db.CompilesFrom root := exists_explore_iff.mpr ⟨found, walked⟩
  obtain ⟨same, isSame, least, _⟩ := (explore_least_closed db root).2.2 compiles
  cases walked.symm.trans isSame
  exact ⟨compiles, found, walked, least, visits, derives⟩

end Walk

end Database

end IsaLogic
