import IsaLogic.Engine.Diagnosis
import IsaLogic.Proofs.Formula.TwoLevel

/-!
# The units of a formula

The conjuncts of a formula are turned into clauses one by one, and a conjunct that would
have too many is kept whole (`UnitOf`). Adding conjuncts gathers their units, so the units
of a formula are those of its conjuncts (`mem_formulas_ofFormula`) and mean the formula
together (`holds_formulas`).

The clauses of one conjunct hold an empty clause only by itself. Those of several may hold
it beside others (`unencodable_iff`), and then they do not build a flat form.
-/

namespace IsaLogic

namespace Formula

/-- The operands of a formula's outer conjunction, once nested conjunctions are merged. -/
def conjuncts (f : Formula) : List Formula :=
  match f.flatten with
  | .conj fs => fs
  | flat => [flat]

theorem all_conjuncts (valuation : Term → Bool) (f : Formula) :
    f.conjuncts.all (holds valuation) = f.holds valuation := by
  rw [← holds_flatten, conjuncts]
  split
  · rename_i fs isConj
    rw [isConj, holds_conj]
  · simp

/-- The conjuncts have what the formula inherits from its operands. -/
theorem Hereditary.conjuncts {property : Formula → Prop} (hereditary : Hereditary property)
    {f : Formula} (holds : property f) : ∀ conjunct ∈ f.conjuncts, property conjunct := by
  have flat := hereditary.flatten holds
  unfold Formula.conjuncts
  split
  · rename_i fs isConj
    rw [isConj] at flat
    exact hereditary.operands flat
  · exact List.forall_mem_singleton.mpr flat

/-- The units of a conjunct: the clauses of its equivalent conjunctive form or, if there are too
many of them, the conjunct itself. -/
inductive UnitOf (limit : Nat) (conjunct : Formula) : Formula → Prop where
  | clause {clauses : List (List Literal)} {clause : List Literal}
      (within : conjunct.equivalentGroups .conjunctive (some limit) = .ok clauses)
      (member : clause ∈ clauses) :
      UnitOf limit conjunct (anyOf (clause.map Literal.toFormula))
  | whole {count : Nat}
      (oversized : conjunct.equivalentGroups .conjunctive (some limit) =
        .error (.sizeExplosion count limit)) :
      UnitOf limit conjunct conjunct

namespace UnitOf

variable {limit : Nat} {conjunct unit : Formula}

/-- A conjunct holds where all its units do. -/
theorem holds_iff (limit : Nat) (conjunct : Formula) (valuation : Term → Bool) :
    conjunct.holds valuation = true ↔
      ∀ unit, UnitOf limit conjunct unit → unit.holds valuation = true := by
  rcases equivalentGroups_cases .conjunctive limit conjunct with
    ⟨clauses, within⟩ | ⟨count, oversized⟩
  · have spells := (equivalentGroups_ok within).1
    rw [← spells.truth valuation, groupsHold, List.all_eq_true]
    constructor
    · intro truth unit isUnit
      cases isUnit with
      | clause withinToo member =>
        cases within.symm.trans withinToo
        simpa [List.any_map] using truth _ member
      | whole oversized => cases within.symm.trans oversized
    · intro each clause member
      simpa [List.any_map] using each _ (.clause within member)
  · constructor
    · intro truth unit isUnit
      cases isUnit with
      | clause within _ => cases oversized.symm.trans within
      | whole _ => exact truth
    · intro each
      exact each conjunct (.whole oversized)

theorem mentionsOnly {allowed : Term → Prop} (isUnit : UnitOf limit conjunct unit)
    (mentions : conjunct.MentionsOnly allowed) : unit.MentionsOnly allowed := by
  cases isUnit with
  | clause within member =>
    have spells := (equivalentGroups_ok within).1
    refine (mentionsOnly_anyOf _).mpr (List.forall_mem_map.mpr fun literal inside => ?_)
    intro term occurs
    rw [occurrences_toFormula, List.mem_singleton] at occurs
    exact occurs ▸ mentions _ (spells.terms _ member literal inside)
  | whole _ => exact mentions

end UnitOf

/-- No conjunct of the formula is too large for clauses, one is plainly false, that is, has the
empty clause, and one has some other clause. -/
def FalseBeside (limit : Nat) (f : Formula) : Prop :=
  (∀ conjunct ∈ f.conjuncts, ∃ clauses,
    conjunct.equivalentGroups .conjunctive (some limit) = .ok clauses) ∧
  (∃ conjunct ∈ f.conjuncts, conjunct.equivalentGroups .conjunctive (some limit) = .ok [[]]) ∧
  ∃ conjunct ∈ f.conjuncts, ∃ clauses,
    conjunct.equivalentGroups .conjunctive (some limit) = .ok clauses ∧
      ∃ clause ∈ clauses, clause ≠ []

theorem FalseBeside.not_satisfiable {limit : Nat} {f : Formula} (beside : f.FalseBeside limit) :
    ¬ f.Satisfiable := by
  obtain ⟨_, ⟨conjunct, isConjunct, within⟩, _⟩ := beside
  rintro ⟨valuation, truth⟩
  rw [← all_conjuncts, List.all_eq_true] at truth
  have conjunctTruth := truth conjunct isConjunct
  rw [← (equivalentGroups_ok within).1.truth] at conjunctTruth
  cases conjunctTruth

end Formula

namespace Units

variable {limit : Nat} {units : Units} {f unit : Formula}

/-- Adding a conjunct adds its clauses, or the conjunct itself if they are too many. Nothing else
keeps a conjunct from being turned into clauses. -/
theorem add_cases (limit : Nat) (units : Units) (conjunct : Formula) :
    (∃ clauses, conjunct.equivalentGroups .conjunctive (some limit) = .ok clauses ∧
      units.add limit conjunct =
        { units with clauses := (units.clauses ++ clauses).eraseDups }) ∨
    ∃ count, conjunct.equivalentGroups .conjunctive (some limit) =
        .error (.sizeExplosion count limit) ∧
      units.add limit conjunct = { units with whole := units.whole ++ [conjunct] } := by
  rcases Formula.equivalentGroups_cases .conjunctive limit conjunct with
    ⟨clauses, within⟩ | ⟨count, oversized⟩
  · exact .inl ⟨clauses, within, by rw [add, within]⟩
  · exact .inr ⟨count, oversized, by rw [add, oversized]⟩

theorem mem_clauses_foldl {clause : List Literal} (conjuncts : List Formula) (units : Units) :
    clause ∈ (conjuncts.foldl (add limit) units).clauses ↔
      clause ∈ units.clauses ∨ ∃ conjunct ∈ conjuncts, ∃ clauses,
        conjunct.equivalentGroups .conjunctive (some limit) = .ok clauses ∧ clause ∈ clauses := by
  induction conjuncts generalizing units with
  | nil => simp
  | cons conjunct conjuncts ih =>
    simp only [List.foldl_cons, ih, List.mem_cons, exists_eq_or_imp, ← or_assoc]
    refine or_congr_left ?_
    rcases add_cases limit units conjunct with ⟨clauses, within, added⟩ | ⟨count, oversized, added⟩
    · simp [added, within, List.mem_eraseDups]
    · simp [added, oversized]

theorem mem_whole_foldl (conjuncts : List Formula) (units : Units) :
    unit ∈ (conjuncts.foldl (add limit) units).whole ↔
      unit ∈ units.whole ∨ ∃ conjunct ∈ conjuncts, (∃ count,
        conjunct.equivalentGroups .conjunctive (some limit) =
          .error (.sizeExplosion count limit)) ∧ unit = conjunct := by
  induction conjuncts generalizing units with
  | nil => simp
  | cons conjunct conjuncts ih =>
    simp only [List.foldl_cons, ih, List.mem_cons, exists_eq_or_imp, ← or_assoc]
    refine or_congr_left ?_
    rcases add_cases limit units conjunct with ⟨clauses, within, added⟩ | ⟨count, oversized, added⟩
    · simp [added, within]
    · simp [added, oversized]

/-- The clauses of a formula are those of its conjuncts. -/
theorem mem_clauses_ofFormula {clause : List Literal} :
    clause ∈ (ofFormula limit f).clauses ↔ ∃ conjunct ∈ f.conjuncts, ∃ clauses,
      conjunct.equivalentGroups .conjunctive (some limit) = .ok clauses ∧ clause ∈ clauses := by
  refine (mem_clauses_foldl f.conjuncts {}).trans ?_
  simp

theorem mem_whole_ofFormula :
    unit ∈ (ofFormula limit f).whole ↔ unit ∈ f.conjuncts ∧ ∃ count,
      unit.equivalentGroups .conjunctive (some limit) = .error (.sizeExplosion count limit) := by
  refine (mem_whole_foldl f.conjuncts {}).trans ?_
  simp only [List.not_mem_nil, false_or]
  constructor
  · rintro ⟨conjunct, isConjunct, oversized, rfl⟩
    exact ⟨isConjunct, oversized⟩
  · rintro ⟨isConjunct, oversized⟩
    exact ⟨unit, isConjunct, oversized, rfl⟩

/-- The units of a formula are those of its conjuncts. -/
theorem mem_formulas_ofFormula :
    unit ∈ (ofFormula limit f).formulas ↔
      ∃ conjunct ∈ f.conjuncts, Formula.UnitOf limit conjunct unit := by
  rw [formulas, List.mem_append, List.mem_map, mem_whole_ofFormula]
  constructor
  · rintro (⟨clause, member, rfl⟩ | ⟨isConjunct, _, oversized⟩)
    · obtain ⟨conjunct, isConjunct, clauses, within, inside⟩ := mem_clauses_ofFormula.mp member
      exact ⟨conjunct, isConjunct, .clause within inside⟩
    · exact ⟨unit, isConjunct, .whole oversized⟩
  · rintro ⟨conjunct, isConjunct, isUnit⟩
    cases isUnit with
    | clause within inside =>
      exact .inl ⟨_, mem_clauses_ofFormula.mpr ⟨conjunct, isConjunct, _, within, inside⟩, rfl⟩
    | whole oversized => exact .inr ⟨isConjunct, _, oversized⟩

/-- The units of a formula together mean the formula. -/
theorem holds_formulas (limit : Nat) (f : Formula) (valuation : Term → Bool) :
    (Formula.allOf (ofFormula limit f).formulas).holds valuation = f.holds valuation := by
  rw [Formula.holds_allOf, ← Formula.all_conjuncts, Bool.eq_iff_iff, List.all_eq_true,
    List.all_eq_true]
  constructor
  · intro each conjunct isConjunct
    refine (Formula.UnitOf.holds_iff limit conjunct valuation).mpr fun unit isUnit => ?_
    exact each unit (mem_formulas_ofFormula.mpr ⟨conjunct, isConjunct, isUnit⟩)
  · intro each unit member
    obtain ⟨conjunct, isConjunct, isUnit⟩ := mem_formulas_ofFormula.mp member
    have truth := each conjunct isConjunct
    exact (Formula.UnitOf.holds_iff limit conjunct valuation).mp truth unit isUnit

theorem entails_of_mem (member : unit ∈ (ofFormula limit f).formulas) : f.Entails unit := by
  intro valuation truth
  rw [← holds_formulas limit, Formula.holds_allOf] at truth
  exact List.all_eq_true.mp truth unit member

theorem mentionsOnly_formulas {allowed : Term → Prop} (mentions : f.MentionsOnly allowed)
    (member : unit ∈ (ofFormula limit f).formulas) : unit.MentionsOnly allowed := by
  obtain ⟨conjunct, isConjunct, isUnit⟩ := mem_formulas_ofFormula.mp member
  exact isUnit.mentionsOnly ((Formula.hereditary_mentionsOnly allowed).conjuncts mentions conjunct isConjunct)

/-- The clauses cannot be numbered: an empty one stands beside others, and the form that they
build is not flat. -/
def Unencodable (units : Units) : Prop :=
  units.whole = [] ∧ [] ∈ units.clauses ∧ units.clauses ≠ [[]]

theorem nodup_clauses_foldl (conjuncts : List Formula) {units : Units}
    (distinct : units.clauses.Nodup) : (conjuncts.foldl (add limit) units).clauses.Nodup := by
  induction conjuncts generalizing units with
  | nil => exact distinct
  | cons conjunct conjuncts ih =>
    refine ih ?_
    rcases add_cases limit units conjunct with ⟨clauses, _, added⟩ | ⟨count, _, added⟩
    · rw [added]
      exact nodup_eraseDups _
    · rw [added]
      exact distinct

theorem whole_eq_nil_iff :
    (ofFormula limit f).whole = [] ↔ ∀ conjunct ∈ f.conjuncts, ∃ clauses,
      conjunct.equivalentGroups .conjunctive (some limit) = .ok clauses := by
  rw [List.eq_nil_iff_forall_not_mem]
  constructor
  · intro none conjunct isConjunct
    rcases Formula.equivalentGroups_cases .conjunctive limit conjunct with spelled | oversized
    · exact spelled
    · exact absurd (mem_whole_ofFormula.mpr ⟨isConjunct, oversized⟩) (none conjunct)
  · intro spelled unit member
    obtain ⟨isConjunct, count, oversized⟩ := mem_whole_ofFormula.mp member
    obtain ⟨clauses, within⟩ := spelled unit isConjunct
    cases within.symm.trans oversized

/-- In the clauses of one conjunct an empty clause stands alone. -/
theorem nil_mem_clauses_iff :
    [] ∈ (ofFormula limit f).clauses ↔ ∃ conjunct ∈ f.conjuncts,
      conjunct.equivalentGroups .conjunctive (some limit) = .ok [[]] := by
  rw [mem_clauses_ofFormula]
  constructor
  · rintro ⟨conjunct, isConjunct, clauses, within, inside⟩
    obtain ⟨_, given, rfl⟩ := Formula.equivalentGroups_ok within
    rw [Formula.canonicalGroups_alone inside] at within
    exact ⟨conjunct, isConjunct, within⟩
  · rintro ⟨conjunct, isConjunct, within⟩
    exact ⟨conjunct, isConjunct, _, within, List.mem_singleton.mpr rfl⟩

theorem clauses_ne_singleton_iff (empty : [] ∈ (ofFormula limit f).clauses) :
    (ofFormula limit f).clauses ≠ [[]] ↔ ∃ clause ∈ (ofFormula limit f).clauses, clause ≠ [] := by
  have distinct : (ofFormula limit f).clauses.Nodup :=
    nodup_clauses_foldl f.conjuncts List.nodup_nil
  constructor
  · intro others
    refine Classical.byContradiction fun none => others ?_
    have only : ∀ clause ∈ (ofFormula limit f).clauses, clause = [] := fun clause member =>
      Classical.byContradiction fun nonempty => none ⟨clause, member, nonempty⟩
    have repeated := List.eq_replicate_of_mem only
    rw [repeated, List.nodup_replicate] at distinct
    have one : (ofFormula limit f).clauses.length = 1 :=
      Nat.le_antisymm distinct (List.length_pos_of_mem empty)
    rw [repeated, one]
    rfl
  · rintro ⟨clause, isClause, nonempty⟩ alone
    rw [alone] at isClause
    exact nonempty (List.mem_singleton.mp isClause)

/-- The clauses of a formula cannot be numbered if one of its conjuncts is plainly false beside
others. -/
theorem unencodable_iff : (ofFormula limit f).Unencodable ↔ f.FalseBeside limit := by
  rw [Unencodable, Formula.FalseBeside, ← whole_eq_nil_iff, ← nil_mem_clauses_iff]
  refine and_congr_right fun _ => and_congr_right fun empty => ?_
  rw [clauses_ne_singleton_iff empty]
  constructor
  · rintro ⟨clause, member, nonempty⟩
    obtain ⟨conjunct, isConjunct, clauses, within, inside⟩ := mem_clauses_ofFormula.mp member
    exact ⟨conjunct, isConjunct, clauses, within, clause, inside, nonempty⟩
  · rintro ⟨conjunct, isConjunct, clauses, within, clause, inside, nonempty⟩
    exact ⟨clause, mem_clauses_ofFormula.mpr ⟨conjunct, isConjunct, clauses, within, inside⟩,
      nonempty⟩

end Units

end IsaLogic
