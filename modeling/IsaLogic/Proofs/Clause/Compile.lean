import IsaLogic.Clause.Compile
import IsaLogic.Proofs.Computation
import IsaLogic.Proofs.Formula.Simplification

/-!
# Clauses have no synthetic variables

What formulas inherit from terms that are not synthetic, the formula of a clause has
(`Formula.Hereditary.compile`). So it is ground, and a formula has a clause just if it is ground.
-/

namespace IsaLogic

/-- No synthetic variable occurs in the formula. -/
def Formula.IsGround (f : Formula) : Prop := f.MentionsOnly fun term => term.isFree = false

namespace Formula.Hereditary

variable {property : Formula → Prop}

mutual

/-- What formulas inherit from the terms that are not synthetic, the formula of a clause has. -/
theorem compile (hereditary : Hereditary property)
    (terms : ∀ term : Term, term.isFree = false → property (.atom term)) :
    ∀ (clause : Clause) (f : Formula), clause.compile = .ok f → property f
  | .bool value, f, compiled => by
    cases compiled
    exact hereditary.constant value
  | .allOf clauses, f, compiled => by
    obtain ⟨fs, compiledList, result⟩ := exists_ok_of_bind compiled
    cases result
    exact hereditary.allOf (compileList hereditary terms clauses fs compiledList)
  | .anyOf clauses, f, compiled => by
    obtain ⟨fs, compiledList, result⟩ := exists_ok_of_bind compiled
    cases result
    exact hereditary.anyOf (compileList hereditary terms clauses fs compiledList)
  | .oneOf clauses, f, compiled => by
    obtain ⟨fs, compiledList, result⟩ := exists_ok_of_bind compiled
    cases result
    exact hereditary.oneOf (compileList hereditary terms clauses fs compiledList)
  | .noneOf clauses, f, compiled => by
    obtain ⟨fs, compiledList, result⟩ := exists_ok_of_bind compiled
    cases result
    exact hereditary.nor (compileList hereditary terms clauses fs compiledList)
  | .negation clause, f, compiled => by
    obtain ⟨g, compiledOperand, result⟩ := exists_ok_of_bind compiled
    cases result
    exact hereditary.neg (compile hereditary terms clause g compiledOperand)
  | .ifThen condition consequence, f, compiled => by
    obtain ⟨a, compiledCondition, rest⟩ := exists_ok_of_bind compiled
    obtain ⟨b, compiledConsequence, result⟩ := exists_ok_of_bind rest
    cases result
    exact hereditary.implies (compile hereditary terms condition a compiledCondition)
      (compile hereditary terms consequence b compiledConsequence)
  | .extension name version, f, compiled => by
    obtain ⟨term, _, result⟩ := exists_ok_of_bind compiled
    cases result
    exact terms _ rfl
  | .param term, f, compiled => by
    cases compiled
    exact terms _ rfl
  | .xlen width, f, compiled => by
    cases compiled
    exact terms _ rfl

theorem compileList (hereditary : Hereditary property)
    (terms : ∀ term : Term, term.isFree = false → property (.atom term)) :
    ∀ (clauses : List Clause) (fs : List Formula),
      Clause.compileList clauses = .ok fs → ∀ f ∈ fs, property f
  | [], fs, compiled => by
    cases compiled
    exact fun f member => nomatch member
  | clause :: rest, fs, compiled => by
    obtain ⟨first, compiledFirst, others⟩ := exists_ok_of_bind compiled
    obtain ⟨gs, compiledRest, result⟩ := exists_ok_of_bind others
    cases result
    intro f member
    rcases List.mem_cons.mp member with rfl | later
    · exact compile hereditary terms clause f compiledFirst
    · exact compileList hereditary terms rest gs compiledRest f later

end

end Formula.Hereditary

theorem Clause.isGround_compile (clause : Clause) (f : Formula)
    (compiled : clause.compile = .ok f) : f.IsGround :=
  (Formula.hereditary_mentionsOnly _).compile
    (fun term notFree => (Formula.mentionsOnly_atom term).mpr notFree) clause f compiled

namespace Formula

theorem isGround_of_toClauses {fs : List Formula} {clauses : List Clause}
    (operands : ∀ f ∈ fs, ∀ clause, f.toClause = .ok clause → f.IsGround)
    (written : toClauses fs = .ok clauses) : ∀ f ∈ fs, f.IsGround := by
  induction fs generalizing clauses with
  | nil => exact fun f member => nomatch member
  | cons g gs ih =>
    obtain ⟨first, writtenFirst, rest⟩ := exists_ok_of_bind written
    obtain ⟨others, writtenRest, _⟩ := exists_ok_of_bind rest
    intro f member
    rcases List.mem_cons.mp member with rfl | later
    · exact operands f (List.mem_cons_self ..) first writtenFirst
    · exact ih (fun f inside => operands f (List.mem_cons_of_mem _ inside)) writtenRest f later

/-- Only a formula without synthetic variables has a clause. -/
theorem isGround_of_toClause {f : Formula} {clause : Clause} (written : f.toClause = .ok clause) :
    f.IsGround := by
  induction f using Formula.induct generalizing clause with
  | constant value => exact mentionsOnly_constant value
  | atom term =>
    refine (mentionsOnly_atom term).mpr ?_
    cases term with
    | free id => cases written
    | _ => rfl
  | neg f ih =>
    obtain ⟨operand, writtenOperand, _⟩ := exists_ok_of_bind written
    exact ih writtenOperand
  | conj fs ih =>
    obtain ⟨clauses, writtenOperands, _⟩ := exists_ok_of_bind written
    exact (mentionsOnly_conj fs).mpr
      (isGround_of_toClauses (fun f member clause => ih f member) writtenOperands)
  | disj fs ih =>
    obtain ⟨clauses, writtenOperands, _⟩ := exists_ok_of_bind written
    exact (mentionsOnly_disj fs).mpr
      (isGround_of_toClauses (fun f member clause => ih f member) writtenOperands)
  | exactlyOne fs ih =>
    obtain ⟨clauses, writtenOperands, _⟩ := exists_ok_of_bind written
    exact (mentionsOnly_exactlyOne fs).mpr
      (isGround_of_toClauses (fun f member clause => ih f member) writtenOperands)
  | noneOf fs ih =>
    obtain ⟨clauses, writtenOperands, _⟩ := exists_ok_of_bind written
    exact (mentionsOnly_noneOf fs).mpr
      (isGround_of_toClauses (fun f member clause => ih f member) writtenOperands)
  | implies a b ihA ihB =>
    obtain ⟨first, writtenA, rest⟩ := exists_ok_of_bind written
    obtain ⟨second, writtenB, _⟩ := exists_ok_of_bind rest
    exact (mentionsOnly_implies a b).mpr ⟨ihA writtenA, ihB writtenB⟩

theorem exists_toClauses {fs : List Formula}
    (operands : ∀ f ∈ fs, ∃ clause, f.toClause = .ok clause) :
    ∃ clauses, toClauses fs = .ok clauses := by
  induction fs with
  | nil => exact ⟨[], rfl⟩
  | cons f fs ih =>
    obtain ⟨first, written⟩ := operands f (List.mem_cons_self ..)
    obtain ⟨others, writtenRest⟩ := ih fun g member => operands g (List.mem_cons_of_mem _ member)
    exact ⟨first :: others, by rw [toClauses, written, writtenRest]; rfl⟩

/-- Every formula without synthetic variables has a clause. -/
theorem exists_toClause {f : Formula} (ground : f.IsGround) : ∃ clause, f.toClause = .ok clause := by
  induction f using Formula.induct with
  | constant value => exact ⟨.bool value, rfl⟩
  | atom term =>
    cases term with
    | extension ext =>
      simp only [toClause, Term.toClause]
      split <;> exact ⟨_, rfl⟩
    | parameter param => exact ⟨_, rfl⟩
    | xlen width => exact ⟨_, rfl⟩
    | free id => cases (mentionsOnly_atom _).mp ground
  | neg f ih =>
    obtain ⟨clause, written⟩ := ih ground
    exact ⟨.negation clause, by rw [toClause, written]; rfl⟩
  | conj fs ih =>
    obtain ⟨clauses, written⟩ := exists_toClauses fun f member =>
      ih f member ((mentionsOnly_conj fs).mp ground f member)
    exact ⟨.allOf clauses, by rw [toClause, written]; rfl⟩
  | disj fs ih =>
    obtain ⟨clauses, written⟩ := exists_toClauses fun f member =>
      ih f member ((mentionsOnly_disj fs).mp ground f member)
    exact ⟨.anyOf clauses, by rw [toClause, written]; rfl⟩
  | exactlyOne fs ih =>
    obtain ⟨clauses, written⟩ := exists_toClauses fun f member =>
      ih f member ((mentionsOnly_exactlyOne fs).mp ground f member)
    exact ⟨.oneOf clauses, by rw [toClause, written]; rfl⟩
  | noneOf fs ih =>
    obtain ⟨clauses, written⟩ := exists_toClauses fun f member =>
      ih f member ((mentionsOnly_noneOf fs).mp ground f member)
    exact ⟨.noneOf clauses, by rw [toClause, written]; rfl⟩
  | implies a b ihA ihB =>
    obtain ⟨groundA, groundB⟩ := (mentionsOnly_implies a b).mp ground
    obtain ⟨condition, writtenA⟩ := ihA groundA
    obtain ⟨consequence, writtenB⟩ := ihB groundB
    exact ⟨.ifThen condition consequence, by rw [toClause, writtenA, writtenB]; rfl⟩

end Formula

end IsaLogic
