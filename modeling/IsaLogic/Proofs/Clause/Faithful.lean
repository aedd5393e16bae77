import IsaLogic.Proofs.Clause.Declaration
import IsaLogic.Proofs.Formula.Proper

/-!
# Clauses are faithful to formulas

A formula is well-formed if its lists of operands have at least two members and its
comparisons are made by `ParamTerm.make` (`IsWellFormed`). Such a formula is normal unless a
synthetic variable occurs in it, and then it has no clause: every other way to fail is ruled
out (`toClause_eq_error_iff`). So a clause is written exactly if no variable is synthetic,
and it means the formula it was written for.

A term is written by way of its declarative form, which the strict reader reads; only an
extension at any version is written without that detour, since its clause names no version.
-/

namespace IsaLogic.Formula

section Proper

/-- A proper formula is normal if its terms are. -/
theorem isNormal_of_isProper {f : Formula} (proper : f.isProper)
    (terms : f.MentionsOnly Term.IsNormal) : f.IsNormal := by
  induction f using Formula.induct with
  | constant value => exact .constant value
  | atom term => exact .atom ((mentionsOnly_atom term).mp terms)
  | neg f ih => exact .neg (ih proper terms)
  | conj fs ih =>
    obtain ⟨several, each⟩ := isProper_conj.mp proper
    have inside := (mentionsOnly_conj fs).mp terms
    exact .conj several fun f member => ih f member (each f member) (inside f member)
  | disj fs ih =>
    obtain ⟨several, each⟩ := isProper_disj.mp proper
    have inside := (mentionsOnly_disj fs).mp terms
    exact .disj several fun f member => ih f member (each f member) (inside f member)
  | exactlyOne fs ih =>
    obtain ⟨several, each⟩ := isProper_exactlyOne.mp proper
    have inside := (mentionsOnly_exactlyOne fs).mp terms
    exact .exactlyOne several fun f member => ih f member (each f member) (inside f member)
  | noneOf fs ih =>
    obtain ⟨several, each⟩ := isProper_noneOf.mp proper
    have inside := (mentionsOnly_noneOf fs).mp terms
    exact .noneOf several fun f member => ih f member (each f member) (inside f member)
  | implies a b ihA ihB =>
    obtain ⟨properA, properB⟩ := isProper_implies.mp proper
    obtain ⟨insideA, insideB⟩ := (mentionsOnly_implies a b).mp terms
    exact .implies (ihA properA insideA) (ihB properB insideB)

/-- A formula as the constructors build it: no list of operands is too short to need its connective,
and every comparison has its alternatives in order. Synthetic variables may occur. -/
structure IsWellFormed (f : Formula) : Prop where
  proper : f.isProper
  made : ∀ param, .parameter param ∈ f.terms →
    ∃ name scope comparison, param = ParamTerm.make name scope comparison

theorem isGround_iff {f : Formula} : f.IsGround ↔ f.hasFreeTerms = false := by
  simp [hasFreeTerms, IsGround, MentionsOnly]

theorem IsWellFormed.isNormal {f : Formula} (wellFormed : f.IsWellFormed)
    (noneFree : f.hasFreeTerms = false) : f.IsNormal := by
  refine isNormal_of_isProper wellFormed.proper fun term occurs => ?_
  cases term with
  | extension term => trivial
  | parameter param =>
    obtain ⟨name, scope, comparison, rfl⟩ := wellFormed.made param (mem_terms.mpr occurs)
    exact ParamTerm.isNormal_make name scope comparison
  | xlen width => trivial
  | free id => cases isGround_iff.mpr noneFree (.free id) occurs

end Proper

section Failure

theorem eq_free_of_toClauses {fs : List Formula} {failure : ConditionError}
    (each : ∀ f ∈ fs, ∀ {failure}, f.toClause = .error failure → failure = .freeTermInClause)
    (fails : toClauses fs = .error failure) : failure = .freeTermInClause := by
  induction fs with
  | nil => cases fails
  | cons f fs ih =>
    rcases error_of_bind fails with atFirst | ⟨first, later⟩
    · exact each f (List.mem_cons_self ..) atFirst
    · exact ih (fun g member => each g (List.mem_cons_of_mem f member)) (error_of_bind_pure later)

/-- There is one way to have no clause. -/
theorem eq_free_of_toClause {f : Formula} {failure : ConditionError}
    (fails : f.toClause = .error failure) : failure = .freeTermInClause := by
  induction f using Formula.induct generalizing failure with
  | constant value => cases fails
  | atom term =>
    cases term with
    | extension term =>
      rw [toClause, Term.toClause] at fails
      split at fails <;> cases fails
    | parameter term => cases fails
    | xlen width => cases fails
    | free id =>
      cases fails
      rfl
  | neg f ih => exact ih (error_of_bind_pure fails)
  | conj fs ih => exact eq_free_of_toClauses ih (error_of_bind_pure fails)
  | disj fs ih => exact eq_free_of_toClauses ih (error_of_bind_pure fails)
  | exactlyOne fs ih => exact eq_free_of_toClauses ih (error_of_bind_pure fails)
  | noneOf fs ih => exact eq_free_of_toClauses ih (error_of_bind_pure fails)
  | implies a b ihA ihB =>
    rcases error_of_bind fails with atCondition | ⟨condition, later⟩
    · exact ihA atCondition
    · exact ihB (error_of_bind_pure later)

/-- A formula has no clause exactly if a synthetic variable occurs in it. -/
theorem toClause_eq_error_iff {f : Formula} {failure : ConditionError} :
    f.toClause = .error failure ↔ f.hasFreeTerms = true ∧ failure = .freeTermInClause := by
  constructor
  · intro fails
    refine ⟨?_, eq_free_of_toClause fails⟩
    by_contra noneFree
    obtain ⟨clause, written⟩ := exists_toClause (isGround_iff.mpr (Bool.not_eq_true _ ▸ noneFree))
    rw [written] at fails
    cases fails
  · rintro ⟨someFree, rfl⟩
    cases result : f.toClause with
    | error failure => rw [eq_free_of_toClause result]
    | ok clause =>
      rw [isGround_iff.mp (isGround_of_toClause result)] at someFree
      cases someFree

end Failure

/-- The clause of a well-formed formula. It fails to exist just for synthetic variables; otherwise
compiling it gives the formula back, connective by connective and term by term. Each term takes the
way through its declarative form, but for extensions at any version. -/
theorem toClause_faithful {f : Formula} (wellFormed : f.IsWellFormed) :
    (∀ failure, f.toClause = .error failure ↔
      f.hasFreeTerms = true ∧ failure = .freeTermInClause) ∧
    (f.hasFreeTerms = false → ∃ clause, f.toClause = .ok clause ∧ clause.compile = .ok f) ∧
    ∀ term ∈ f.terms, term.isFree = false → (∀ name, term ≠ .extension (.any name)) →
      ∃ json, term.toJson? = some json ∧ Clause.ofJson json = term.toClause := by
  refine ⟨fun failure => toClause_eq_error_iff,
    fun noneFree => (wellFormed.isNormal noneFree).compile_toClause, ?_⟩
  intro term _ ground versioned
  have written : ∃ json, term.toJson? = some json := by
    cases term with
    | free id => cases ground
    | _ => exact ⟨_, rfl⟩
  obtain ⟨json, written⟩ := written
  refine ⟨json, written, Term.ofJson_eq_toClause written fun extension same isAny => ?_⟩
  exact versioned extension.name (same.trans (congrArg _ isAny))

/-- Every connective, a pre-release with build metadata, an element of an array compared with nested
alternatives, a length, a width and an extension without a version. -/
theorem toClause_faithful_nested :
    let version : Version :=
      { major := 1, minor := 2, patch := 0
        pre := [⟨['r', 'c'], rfl⟩, ⟨['1'], rfl⟩], build := [⟨['0', '7'], rfl⟩] }
    let alternatives : List ParamValue :=
      [.array [.str "x", .array [.int 3]], .bool true, .int (-4)]
    let f := conj [
      exactlyOne [.atom (.extension { name := "A", op := .compatible, version }),
        .atom (.parameter (.make "P" (.index 2) (.oneOf alternatives)))],
      noneOf [.atom (.extension (.any "B")), .atom (.xlen .rv64)],
      disj [.atom (.parameter (.make "Q" .size (.atMost 4))), .constant false],
      implies (.constant true) (.neg (.atom (.xlen .rv32)))]
    f.IsWellFormed ∧ f.hasFreeTerms = false ∧
      (∃ clause, f.toClause = .ok clause ∧ clause.compile = .ok f) ∧
      (neg (.atom (.free 0))).toClause = .error .freeTermInClause := by
  intro version alternatives f
  have wellFormed : f.IsWellFormed := by
    refine ⟨by cbv, fun param member => ?_⟩
    have either : param = .make "P" (.index 2) (.oneOf alternatives) ∨
        param = .make "Q" .size (.atMost 4) := by
      simpa [f] using member
    rcases either with rfl | rfl
    · exact ⟨_, _, _, rfl⟩
    · exact ⟨_, _, _, rfl⟩
  have noneFree : f.hasFreeTerms = false := by cbv
  have synthetic : (neg (.atom (.free 0))).IsWellFormed := ⟨by cbv, by simp⟩
  exact ⟨wellFormed, noneFree, (toClause_faithful wellFormed).2.1 noneFree,
    ((toClause_faithful synthetic).1 _).mpr ⟨by cbv, rfl⟩⟩

end IsaLogic.Formula
