import Mathlib
import IsaLogic.Engine.Minimization
import IsaLogic.Proofs.Cover.Expand
import IsaLogic.Proofs.Cover.Prime
import IsaLogic.Proofs.Engine.Memory

/-!
# Engines minimize to equivalent formulas

Every cover that an engine builds describes the formula, whichever way it is built
(`InputCover`): off a disjunctive form, off the conjunctive form of the complement, or
off a truth table. The minimizer keeps the points of a cover, so the formula made of
what it returns is equivalent. With the minimizer in process the only failure is that
a formula is too large. An engine that remembers answers gives equivalent ones as long
as no fingerprints collide.
-/

namespace IsaLogic

namespace Formula

/-- The formula that is true at the points that a two-level form covers. -/
def coveredTarget (form : TwoLevel) (f : Formula) : Formula :=
  match form with
  | .conjunctive => .neg f
  | .disjunctive => f

theorem holds_coveredTarget (form : TwoLevel) (f : Formula) (valuation : Term → Bool) :
    (f.coveredTarget form).holds valuation = true ↔ f.holds valuation = form.covered := by
  cases form <;> simp [coveredTarget, TwoLevel.covered]

theorem occurrences_coveredTarget (form : TwoLevel) (f : Formula) :
    (f.coveredTarget form).occurrences = f.occurrences := by
  cases form <;> rfl

end Formula

/-- The covers that a minimizer is given: cubes of a disjunctive form, opposite clauses of a
conjunctive form of the complement, or the points of a truth table. -/
inductive InputCover (form : TwoLevel) (f : Formula) : List Cube → Prop where
  | products {limit : Option Nat} {groups : List (List Literal)}
      (within : (f.coveredTarget form).equivalentGroups .disjunctive limit = .ok groups) :
      InputCover form f (groups.map (Cube.ofLiterals f.terms))
  | complement {limit : Option Nat} {groups : List (List Literal)}
      (within : (Formula.neg (f.coveredTarget form)).equivalentGroups .conjunctive limit =
        .ok groups) :
      InputCover form f ((groups.map (List.map Literal.negated)).map (Cube.ofLiterals f.terms))
  | table : InputCover form f ((TruthTable.ofFormula f).pointCubes form)

namespace InputCover

variable {form : TwoLevel} {f : Formula} {cubes : List Cube}

/-- Whichever way it is built, the cover describes the formula. -/
theorem describes (given : InputCover form f cubes) : Describes form f cubes := by
  have terms := Formula.occurrences_coveredTarget form f
  have truth := Formula.holds_coveredTarget form f
  cases given with
  | products within =>
    obtain ⟨spells, _, rfl⟩ := Formula.equivalentGroups_ok within
    exact .ofGroups spells (fun _ member => (Formula.mem_canonicalGroups member).2) terms truth
  | complement within =>
    obtain ⟨spells, _, rfl⟩ := Formula.equivalentGroups_ok within
    refine .ofGroups spells.negated (fun group member => ?_) terms truth
    obtain ⟨clause, isClause, rfl⟩ := List.mem_map.mp member
    rw [Formula.isContradictory_map_negated]
    exact (Formula.mem_canonicalGroups isClause).2
  | table => exact describes_pointCubes form f

/-- The minimizer keeps the width of the cover and what it describes. -/
theorem describes_minimizeCover (given : InputCover form f cubes) :
    Describes form f (Cube.minimizeCover cubes) := by
  obtain ⟨widths, same⟩ := Cube.minimizeCover_spec given.describes.width
  exact given.describes.samePoints widths same

end InputCover

namespace Limits

variable {limits : Limits} {form : TwoLevel} {f : Formula}

theorem inputGroups?_eq (limits : Limits) (form : TwoLevel) (f : Formula) :
    limits.inputGroups? form f =
      Option.filter (fun groups => groups.length ≤ limits.minimizeMaxCubes)
        (match (f.coveredTarget form).equivalentGroups .disjunctive limits.minimizeMaxCubes with
        | .ok groups => some groups
        | .error _ =>
          match (Formula.neg (f.coveredTarget form)).equivalentGroups .conjunctive
              limits.minimizeMaxCubes with
          | .ok groups => some (groups.map (List.map Literal.negated))
          | .error _ => none) :=
  rfl

/-- The groups are the cubes of the target, or the opposite clauses of its complement if the cubes
are too many. There are none if the clauses are too many as well, or if a minimizer is not given as
many; nothing else keeps a formula from having them. -/
theorem inputGroups?_cases (limits : Limits) (form : TwoLevel) (f : Formula) :
    let limit := limits.minimizeMaxCubes
    let target := f.coveredTarget form
    (∃ groups, target.equivalentGroups .disjunctive (some limit) = .ok groups ∧
      limits.inputGroups? form f = (some groups).filter fun groups => groups.length ≤ limit) ∨
    (∃ count, target.equivalentGroups .disjunctive (some limit) =
        .error (.sizeExplosion count limit)) ∧
      ((∃ groups, (Formula.neg target).equivalentGroups .conjunctive (some limit) = .ok groups ∧
        limits.inputGroups? form f = (some (groups.map (List.map Literal.negated))).filter
          fun groups => groups.length ≤ limit) ∨
      (∃ count, (Formula.neg target).equivalentGroups .conjunctive (some limit) =
          .error (.sizeExplosion count limit)) ∧
        limits.inputGroups? form f = none) := by
  intro limit target
  rw [inputGroups?_eq]
  rcases target.equivalentGroups_cases .disjunctive limit with ⟨groups, within⟩ | ⟨count, oversized⟩
  · exact .inl ⟨groups, within, by rw [within]⟩
  · rw [oversized]
    refine .inr ⟨⟨count, rfl⟩, ?_⟩
    rcases target.neg.equivalentGroups_cases .conjunctive limit with
      ⟨groups, within⟩ | ⟨count, oversized⟩
    · exact .inl ⟨groups, within, by rw [within]⟩
    · exact .inr ⟨⟨count, oversized⟩, by rw [oversized]; rfl⟩

theorem inputCover_of_inputGroups? {groups : List (List Literal)}
    (found : limits.inputGroups? form f = some groups) :
    InputCover form f (groups.map (Cube.ofLiterals f.terms)) := by
  rcases limits.inputGroups?_cases form f with
    ⟨cubes, within, spelled⟩ | ⟨_, ⟨clauses, within, spelled⟩ | ⟨_, nothing⟩⟩
  · cases (Option.filter_eq_some_iff.mp (spelled.symm.trans found)).1
    exact .products within
  · cases (Option.filter_eq_some_iff.mp (spelled.symm.trans found)).1
    exact .complement within
  · rw [nothing] at found
    cases found

/-- The error of a formula with more terms than a truth table may have. -/
def TooLarge (limits : Limits) (f : Formula) (failure : QueryError) : Prop :=
  min limits.heuristicMinimizeMaxTerms maxTruthTableTerms < f.terms.length ∧
    failure = .tooLargeToMinimize f.terms.length limits.minimizeMaxCubes

/-- A cover is built in one of the ways, or the formula is too large for all of them. -/
theorem inputCover_cases (limits : Limits) (form : TwoLevel) (f : Formula) :
    (∃ cubes, limits.inputCover form f = .ok cubes ∧ InputCover form f cubes) ∨
      ∃ failure, limits.inputCover form f = .error failure ∧ limits.TooLarge f failure := by
  unfold inputCover
  split
  · rename_i groups found
    exact .inl ⟨_, rfl, inputCover_of_inputGroups? found⟩
  · split
    · exact .inl ⟨_, rfl, .table⟩
    · rename_i large
      exact .inr ⟨_, rfl, Nat.lt_of_not_le large, rfl⟩

end Limits

namespace Engine

/-- The engine's minimizer expands and thins covers. -/
def MinimizesInProcess (engine : Engine) : Prop :=
  ∀ pla, engine.minimizeCover pla = .ok pla.minimize

section

variable {engine : Engine} {form : TwoLevel} {f : Formula}

/-- In process, a cover over the terms comes back as one over the terms. -/
theorem minimizeByCover_eq (inProcess : engine.MinimizesInProcess) {cubes : List Cube}
    (found : engine.limits.inputCover form f = .ok cubes) (given : InputCover form f cubes) :
    engine.minimizeByCover form f = .ok (coverFormula f.terms form (Cube.minimizeCover cubes)) := by
  have noOther : ((Pla.ofLabels (f.terms.map Term.identifier) cubes).minimize.cubes.find?
      fun cube => cube.length ≠ f.terms.length) = none := by
    change (Cube.minimizeCover cubes).find? _ = none
    apply List.find?_eq_none.mpr
    intro cube member
    simp [given.describes_minimizeCover.width cube member]
  unfold minimizeByCover
  rw [found]
  change (engine.minimizeCover _ >>= _) = _
  rw [inProcess]
  dsimp only [bind, Except.bind]
  rw [noOther]
  rfl

theorem minimizeByCover_cases (inProcess : engine.MinimizesInProcess) (form : TwoLevel)
    (f : Formula) :
    (∃ m, engine.minimizeByCover form f = .ok m ∧ m.Equivalent f) ∨
      ∃ failure, engine.minimizeByCover form f = .error failure ∧
        engine.limits.TooLarge f failure := by
  rcases engine.limits.inputCover_cases form f with ⟨cubes, found, given⟩ | ⟨failure, failed, large⟩
  · exact .inl ⟨_, minimizeByCover_eq inProcess found given,
      given.describes_minimizeCover.equivalent⟩
  · refine .inr ⟨failure, ?_, large⟩
    unfold minimizeByCover
    rw [failed]
    rfl

/-- The ways to a small form of a formula: exactly, by flattening it, or by a cover. -/
inductive Finds (engine : Engine) (form : TwoLevel) (f : Formula) : Formula → Prop where
  | exactly : Finds engine form f (f.minimizeExact form)
  | flattened (nested : f.isNested form = true) (once : f.terms.length = f.occurrences.length) :
    Finds engine form f f.flatten
  | byCover {m : Formula} (found : engine.minimizeByCover form f = .ok m) : Finds engine form f m

/-- Minimization answers at once, from the cache, or with what it finds and then stores; it fails
only if the minimizer does. -/
theorem ends_minimize_finds {memory : Memory} {answers : Formula → Memory → Prop}
    {fails : QueryError → Memory → Prop}
    (atOnce : ∀ m : Formula, engine.Finds form f m → answers m memory)
    (stored : ∀ m, lookup? (engine.fingerprint f, form) memory.cache.minimized = some m →
      answers m { memory with cache := { memory.cache with hits := memory.cache.hits + 1 } })
    (found : lookup? (engine.fingerprint f, form) memory.cache.minimized = none →
      ∀ m : Formula, engine.minimizeByCover form f = .ok m → answers m
        { memory with
          cache := { memory.cache with
            misses := memory.cache.misses + 1
            minimized := ((engine.fingerprint f, form), m) :: memory.cache.minimized } })
    (failed : ∀ failure, engine.minimizeByCover form f = .error failure → fails failure
      { memory with cache := { memory.cache with misses := memory.cache.misses + 1 } }) :
    (engine.minimize form f).Ends memory answers fails := by
  unfold minimize
  dsimp only
  split
  · exact Query.ends_pure (atOnce _ .exactly)
  · split
    · rename_i readsOnce
      rw [Bool.and_eq_true, beq_iff_eq] at readsOnce
      exact Query.ends_pure (atOnce _ (.flattened readsOnce.1 readsOnce.2))
    · refine Query.ends_remembering stored fun unknown => ?_
      cases outcome : engine.minimizeByCover form f with
      | ok m => exact found unknown m outcome
      | error failure => exact failed failure outcome

theorem Finds.equivalent (inProcess : engine.MinimizesInProcess) {m : Formula}
    (finds : engine.Finds form f m) : m.Equivalent f := by
  cases finds with
  | exactly => exact (describes_primeCover form f).equivalent
  | flattened => exact fun valuation => Formula.holds_flatten valuation f
  | byCover found =>
    rcases minimizeByCover_cases inProcess form f with ⟨other, outcome, equivalent⟩ | ⟨_, failed, _⟩
    · cases outcome.symm.trans found
      exact equivalent
    · cases failed.symm.trans found

theorem tooLarge_of_minimizeByCover (inProcess : engine.MinimizesInProcess) {failure : QueryError}
    (failed : engine.minimizeByCover form f = .error failure) : engine.limits.TooLarge f failure := by
  rcases minimizeByCover_cases inProcess form f with ⟨_, found, _⟩ | ⟨other, outcome, large⟩
  · cases found.symm.trans failed
  · cases outcome.symm.trans failed
    exact large

/-- In process, every answer is equivalent, and minimization fails only on a formula that is too
large. -/
theorem ends_minimize (inProcess : engine.MinimizesInProcess) {memory : Memory}
    {answers : Formula → Memory → Prop} {fails : QueryError → Memory → Prop}
    (atOnce : ∀ m : Formula, m.Equivalent f → answers m memory)
    (stored : ∀ m, lookup? (engine.fingerprint f, form) memory.cache.minimized = some m →
      answers m { memory with cache := { memory.cache with hits := memory.cache.hits + 1 } })
    (found : lookup? (engine.fingerprint f, form) memory.cache.minimized = none →
      ∀ m : Formula, m.Equivalent f → answers m
        { memory with
          cache := { memory.cache with
            misses := memory.cache.misses + 1
            minimized := ((engine.fingerprint f, form), m) :: memory.cache.minimized } })
    (tooLarge : ∀ failure, engine.limits.TooLarge f failure → fails failure
      { memory with cache := { memory.cache with misses := memory.cache.misses + 1 } }) :
    (engine.minimize form f).Ends memory answers fails :=
  ends_minimize_finds (fun m finds => atOnce m (finds.equivalent inProcess)) stored
    (fun unknown m outcome => found unknown m (Finds.equivalent inProcess (.byCover outcome)))
    fun failure failed => tooLarge failure (tooLarge_of_minimizeByCover inProcess failed)

end

/-- In process, minimization gives an equivalent formula on each of its ways, whichever the
limits choose, and fails only on a formula that is too large. An engine that has minimized
formulas before does so as well, unless their fingerprints collide. -/
theorem minimize_equivalent {engine : Engine} (inProcess : engine.MinimizesInProcess)
    (form : TwoLevel) (f : Formula) :
    (∀ memory : Memory, lookup? (engine.fingerprint f, form) memory.cache.minimized = none →
      (engine.minimize form f).Ends memory (fun m _ => m.Equivalent f) fun failure _ =>
        engine.limits.TooLarge f failure) ∧
    (∀ (memory : Memory) (asked held : List Formula),
      memory.Truthful engine.fingerprint asked held →
      CollisionFree engine.fingerprint (f :: asked) →
      (engine.minimize form f).Ends memory
        (fun m next => m.Equivalent f ∧ next.Truthful engine.fingerprint (f :: asked) held)
        fun failure next => engine.limits.TooLarge f failure ∧
          next.Truthful engine.fingerprint (f :: asked) held) ∧
    (f.minimizeExact form).Equivalent f ∧ f.flatten.Equivalent f ∧
      ∀ cubes, InputCover form f cubes →
        (coverFormula f.terms form (Cube.minimizeCover cubes)).Equivalent f := by
  refine ⟨fun memory unknown => ?_, fun memory asked held truthful distinct => ?_,
    (describes_primeCover form f).equivalent, fun valuation => Formula.holds_flatten valuation f,
    fun cubes given => given.describes_minimizeCover.equivalent⟩
  · refine ends_minimize inProcess (fun m equivalent => equivalent) (fun m stored => ?_)
      (fun _ m equivalent => equivalent) fun failure large => large
    rw [unknown] at stored
    cases stored
  · have asking := truthful.asking (f :: asked) (List.subset_cons_self ..)
    have isAsked : f ∈ f :: asked := List.mem_cons_self ..
    refine ends_minimize inProcess (fun m equivalent => ⟨equivalent, asking⟩) (fun m stored => ?_)
      (fun _ m equivalent => ?_) fun failure large => ⟨large, asking.counting _ _⟩
    · obtain ⟨g, isAskedToo, sameFingerprint, equivalent⟩ := asking.minimized _ _ _ stored
      cases distinct g isAskedToo f isAsked sameFingerprint
      exact ⟨equivalent, asking.counting _ _⟩
    · have counted := asking.counting memory.cache.hits (memory.cache.misses + 1)
      exact ⟨equivalent, counted.storeMinimized isAsked form equivalent⟩

/-- The engine that may not minimize exactly, on a formula that needs a minimizer and is not too
large for it. -/
theorem minimize_equivalent_alternative :
    let engine := inProcess { exactMinimizeMaxTerms := 0 }
    let f := Formula.exactlyOne [.atom (.xlen .rv32), .atom (.xlen .rv64)]
    engine.MinimizesInProcess ∧
      lookup? (engine.fingerprint f, TwoLevel.conjunctive) ({} : Memory).cache.minimized = none ∧
      ((engine.minimize .conjunctive f).Answers {} fun m _ => m.Equivalent f) ∧
      ({} : Memory).Truthful engine.fingerprint [] [] ∧ CollisionFree engine.fingerprint [f] ∧
      ((engine.minimize .conjunctive f).Ends {}
        (fun m next => m.Equivalent f ∧ next.Truthful engine.fingerprint [f] [])
        fun failure next => engine.limits.TooLarge f failure ∧
          next.Truthful engine.fingerprint [f] []) ∧
      ∃ cubes, InputCover .conjunctive f cubes ∧
        (coverFormula f.terms .conjunctive (Cube.minimizeCover cubes)).Equivalent f := by
  intro engine f
  have inProcess : engine.MinimizesInProcess := fun _ => rfl
  have truthful := Memory.Truthful.initial engine.fingerprint []
  have distinct := CollisionFree.singleton engine.fingerprint f
  have two : f.terms.length = 2 := by cbv
  have small : ¬ min 16 24 < f.terms.length := by omega
  obtain ⟨unknown, remembering, _, _, covers⟩ := minimize_equivalent inProcess .conjunctive f
  exact ⟨inProcess, rfl, (unknown {} rfl).mono (fun _ _ => id) fun _ _ large => small large.1,
    truthful, distinct, remembering {} [] [] truthful distinct, _, .table, covers _ .table⟩

end Engine

end IsaLogic
