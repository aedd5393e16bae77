import IsaLogic.Clause.Reader
import IsaLogic.Proofs.Ascending
import IsaLogic.Proofs.Clause.Compile
import IsaLogic.Proofs.Formula.Knowledge
import IsaLogic.Proofs.Formula.TwoLevel
import IsaLogic.Proofs.Term.Order
import IsaLogic.Proofs.Version.RoundTrip

/-!
# Clauses of formulas and formulas of clauses

A formula is normal if its connectives have the operands that they do not collapse at, and
its terms are as clauses say them: no synthetic variables, and alternatives in order. The
clause of a normal formula means that formula again (`IsNormal.compile_toClause`), for a version
is read back from its text and no connective collapses.

A clause with its comparisons in order means a normal formula (`Clause.IsNormal.compile`), and a
clause that is read has them in order (`isNormal_parse`). To be normal is hereditary, so
flattening, simplification and partial evaluation keep it.
-/

namespace IsaLogic

section Terms

/-- The alternatives of the comparison are in order. -/
def ParamTerm.IsNormal (term : ParamTerm) : Prop := term.comparison.normalize = term.comparison

theorem ParamTerm.isNormal_make (name : String) (scope : ParamScope) (comparison : Comparison) :
    (make name scope comparison).IsNormal := by
  cases comparison with
  | oneOf vs => exact congrArg Comparison.oneOf (ascending_ascending vs)
  | _ => rfl

theorem ParamTerm.IsNormal.make_eq {term : ParamTerm} (normal : term.IsNormal) :
    make term.name term.scope term.comparison = term := by
  rw [make, normal]

/-- A term as clauses say it: no synthetic variable, and with its alternatives in order. -/
def Term.IsNormal : Term → Prop
  | .parameter term => term.IsNormal
  | .free _ => False
  | .extension _ | .xlen _ => True

/-- The clause of a term means the term. -/
theorem Term.compile_toClause {term : Term} (normal : term.IsNormal) :
    ∃ clause, term.toClause = .ok clause ∧ clause.compile = .ok (.atom term) := by
  cases term with
  | extension term =>
    rw [toClause]
    split
    · rename_i isAny
      refine ⟨_, rfl, ?_⟩
      rw [isAny]
      rfl
    · refine ⟨_, rfl, ?_⟩
      rw [Clause.compile, ExtensionTerm.ofClause, term.parse_requirement]
      rfl
  | parameter term =>
    refine ⟨_, rfl, ?_⟩
    rw [ParamTerm.IsNormal.make_eq normal]
    rfl
  | xlen width => exact ⟨_, rfl, rfl⟩
  | free id => exact normal.elim

end Terms

namespace Formula

/-- A formula as clauses mean it: its connectives do not collapse, and its terms are normal. -/
inductive IsNormal : Formula → Prop where
  | constant (value : Bool) : IsNormal (.constant value)
  | atom {term : Term} (normal : term.IsNormal) : IsNormal (.atom term)
  | neg {f : Formula} (operand : IsNormal f) : IsNormal (.neg f)
  | conj {fs : List Formula} (several : 1 < fs.length) (each : ∀ f ∈ fs, IsNormal f) :
      IsNormal (.conj fs)
  | disj {fs : List Formula} (several : 1 < fs.length) (each : ∀ f ∈ fs, IsNormal f) :
      IsNormal (.disj fs)
  | exactlyOne {fs : List Formula} (several : 1 < fs.length) (each : ∀ f ∈ fs, IsNormal f) :
      IsNormal (.exactlyOne fs)
  | noneOf {fs : List Formula} (several : 1 < fs.length) (each : ∀ f ∈ fs, IsNormal f) :
      IsNormal (.noneOf fs)
  | implies {a b : Formula} (antecedent : IsNormal a) (consequent : IsNormal b) :
      IsNormal (.implies a b)

/-- The collapsing constructors build normal formulas from normal ones. -/
theorem hereditary_isNormal : Hereditary IsNormal := by
  refine .of_several .constant .neg .conj .disj .exactlyOne .noneOf .implies fun normal => ?_
  cases normal with
  | constant value => nofun
  | atom normal => nofun
  | neg operand => exact List.forall_mem_singleton.mpr operand
  | conj several each => exact each
  | disj several each => exact each
  | exactlyOne several each => exact each
  | noneOf several each => exact each
  | implies antecedent consequent =>
    exact List.forall_mem_cons.mpr ⟨antecedent, List.forall_mem_singleton.mpr consequent⟩

theorem isNormal_pair {f g : Formula} (first : f.IsNormal) (second : g.IsNormal) :
    ∀ h ∈ [f, g], h.IsNormal :=
  List.forall_mem_cons.mpr ⟨first, List.forall_mem_singleton.mpr second⟩

theorem IsNormal.mentionsOnly {f : Formula} (normal : f.IsNormal) :
    f.MentionsOnly Term.IsNormal := by
  induction normal with
  | constant value => exact mentionsOnly_constant value
  | atom normal => exact (mentionsOnly_atom _).mpr normal
  | neg operand ih => exact ih
  | conj several each ih => exact (mentionsOnly_conj _).mpr ih
  | disj several each ih => exact (mentionsOnly_disj _).mpr ih
  | exactlyOne several each ih => exact (mentionsOnly_exactlyOne _).mpr ih
  | noneOf several each ih => exact (mentionsOnly_noneOf _).mpr ih
  | implies antecedent consequent ihA ihB => exact (mentionsOnly_implies _ _).mpr ⟨ihA, ihB⟩

theorem isNormal_toFormula {literal : Literal} (normal : literal.term.IsNormal) :
    literal.toFormula.IsNormal := by
  unfold Literal.toFormula
  split
  · exact .atom normal
  · exact .neg (.atom normal)

/-- A two-level form is normal if its terms are. -/
theorem isNormal_ofGroups {form : TwoLevel} {groups : List (List Literal)}
    (normal : ∀ group ∈ groups, ∀ literal ∈ group, literal.term.IsNormal) :
    (ofGroups form groups).IsNormal :=
  hereditary_isNormal.ofGroups form fun group member literal inside =>
    isNormal_toFormula (normal group member literal inside)

theorem compileList_toClauses {fs : List Formula}
    (each : ∀ f ∈ fs, ∃ clause, f.toClause = .ok clause ∧ clause.compile = .ok f) :
    ∃ clauses, toClauses fs = .ok clauses ∧ Clause.compileList clauses = .ok fs := by
  induction fs with
  | nil => exact ⟨[], rfl, rfl⟩
  | cons f fs ih =>
    obtain ⟨first, written, compiled⟩ := each f (List.mem_cons_self ..)
    obtain ⟨others, writtenRest, compiledRest⟩ := ih fun g member =>
      each g (List.mem_cons_of_mem f member)
    refine ⟨first :: others, ?_, ?_⟩
    · rw [toClauses, written, writtenRest]
      rfl
    · rw [Clause.compileList, compiled, compiledRest]
      rfl

theorem exists_cons_cons {fs : List Formula} (several : 1 < fs.length) :
    ∃ first second rest, fs = first :: second :: rest := by
  rcases fs with _ | ⟨first, _ | ⟨second, rest⟩⟩
  · simp at several
  · simp at several
  · exact ⟨first, second, rest, rfl⟩

/-- A normal formula has a clause, which means it. -/
theorem IsNormal.compile_toClause {f : Formula} (normal : f.IsNormal) :
    ∃ clause, f.toClause = .ok clause ∧ clause.compile = .ok f := by
  induction normal with
  | constant value => exact ⟨.bool value, rfl, rfl⟩
  | atom normal => exact Term.compile_toClause normal
  | neg operand ih =>
    obtain ⟨clause, written, compiled⟩ := ih
    exact ⟨.negation clause, by rw [toClause, written]; rfl, by rw [Clause.compile, compiled]; rfl⟩
  | @conj fs several each ih =>
    obtain ⟨clauses, written, compiled⟩ := compileList_toClauses ih
    refine ⟨.allOf clauses, by rw [toClause, written]; rfl, ?_⟩
    rw [Clause.compile, compiled]
    obtain ⟨first, second, rest, rfl⟩ := exists_cons_cons several
    rfl
  | @disj fs several each ih =>
    obtain ⟨clauses, written, compiled⟩ := compileList_toClauses ih
    refine ⟨.anyOf clauses, by rw [toClause, written]; rfl, ?_⟩
    rw [Clause.compile, compiled]
    obtain ⟨first, second, rest, rfl⟩ := exists_cons_cons several
    rfl
  | @exactlyOne fs several each ih =>
    obtain ⟨clauses, written, compiled⟩ := compileList_toClauses ih
    refine ⟨.oneOf clauses, by rw [toClause, written]; rfl, ?_⟩
    rw [Clause.compile, compiled]
    obtain ⟨first, second, rest, rfl⟩ := exists_cons_cons several
    rfl
  | @noneOf fs several each ih =>
    obtain ⟨clauses, written, compiled⟩ := compileList_toClauses ih
    refine ⟨.noneOf clauses, by rw [toClause, written]; rfl, ?_⟩
    rw [Clause.compile, compiled]
    obtain ⟨first, second, rest, rfl⟩ := exists_cons_cons several
    rfl
  | implies antecedent consequent ihA ihB =>
    obtain ⟨condition, writtenA, compiledA⟩ := ihA
    obtain ⟨consequence, writtenB, compiledB⟩ := ihB
    refine ⟨.ifThen condition consequence, ?_, ?_⟩
    · rw [toClause, writtenA, writtenB]
      rfl
    · rw [Clause.compile, compiledA, compiledB]
      rfl

end Formula

namespace Clause

/-- The comparisons in the clause have their alternatives in order. -/
inductive IsNormal : Clause → Prop where
  | bool (value : Bool) : IsNormal (.bool value)
  | allOf {clauses : List Clause} (each : ∀ clause ∈ clauses, IsNormal clause) :
      IsNormal (.allOf clauses)
  | anyOf {clauses : List Clause} (each : ∀ clause ∈ clauses, IsNormal clause) :
      IsNormal (.anyOf clauses)
  | oneOf {clauses : List Clause} (each : ∀ clause ∈ clauses, IsNormal clause) :
      IsNormal (.oneOf clauses)
  | noneOf {clauses : List Clause} (each : ∀ clause ∈ clauses, IsNormal clause) :
      IsNormal (.noneOf clauses)
  | negation {clause : Clause} (operand : IsNormal clause) : IsNormal (.negation clause)
  | ifThen {a b : Clause} (condition : IsNormal a) (consequence : IsNormal b) :
      IsNormal (.ifThen a b)
  | extension (name : String) (version : Option String) : IsNormal (.extension name version)
  | param {term : ParamTerm} (normal : term.IsNormal) : IsNormal (.param term)
  | xlen (width : Xlen) : IsNormal (.xlen width)

section Compile

theorem compileList_eq_mapM (clauses : List Clause) :
    compileList clauses = clauses.mapM compile := by
  induction clauses with
  | nil => rfl
  | cons clause rest ih =>
    rw [compileList, List.mapM_cons, ih]

/-- A normal clause means a normal formula. -/
theorem IsNormal.compile {clause : Clause} (normal : clause.IsNormal) {f : Formula}
    (compiled : clause.compile = .ok f) : f.IsNormal := by
  have operands : ∀ {clauses : List Clause} {fs : List Formula},
      (∀ clause ∈ clauses, ∀ f, clause.compile = .ok f → f.IsNormal) →
      compileList clauses = .ok fs → ∀ f ∈ fs, f.IsNormal := by
    intro clauses fs each compiledList f member
    rw [compileList_eq_mapM] at compiledList
    obtain ⟨clause, isClause, isFormula⟩ := (mem_of_mapM compiledList).mp member
    exact each clause isClause f isFormula
  induction normal generalizing f with
  | bool value =>
    cases compiled
    exact .constant value
  | allOf each ih =>
    obtain ⟨fs, compiledList, result⟩ := exists_ok_of_bind compiled
    cases result
    exact Formula.hereditary_isNormal.allOf (operands (fun c m f => ih c m) compiledList)
  | anyOf each ih =>
    obtain ⟨fs, compiledList, result⟩ := exists_ok_of_bind compiled
    cases result
    exact Formula.hereditary_isNormal.anyOf (operands (fun c m f => ih c m) compiledList)
  | oneOf each ih =>
    obtain ⟨fs, compiledList, result⟩ := exists_ok_of_bind compiled
    cases result
    exact Formula.hereditary_isNormal.oneOf (operands (fun c m f => ih c m) compiledList)
  | noneOf each ih =>
    obtain ⟨fs, compiledList, result⟩ := exists_ok_of_bind compiled
    cases result
    exact Formula.hereditary_isNormal.nor (operands (fun c m f => ih c m) compiledList)
  | negation operand ih =>
    obtain ⟨g, compiledOperand, result⟩ := exists_ok_of_bind compiled
    cases result
    exact .neg (ih compiledOperand)
  | ifThen condition consequence ihA ihB =>
    obtain ⟨a, compiledA, rest⟩ := exists_ok_of_bind compiled
    obtain ⟨b, compiledB, result⟩ := exists_ok_of_bind rest
    cases result
    exact .implies (ihA compiledA) (ihB compiledB)
  | extension name version =>
    obtain ⟨term, _, result⟩ := exists_ok_of_bind compiled
    cases result
    exact .atom trivial
  | param normal =>
    cases compiled
    exact .atom normal
  | xlen width =>
    cases compiled
    exact .atom trivial

end Compile

section Reading

theorem isNormal_readParamFields {name : String} {scope : ParamScope}
    {comparison : Option Comparison} {fields : List (String × Json)} {term : ParamTerm}
    (read : readParamFields name scope comparison fields = .ok term) : term.IsNormal := by
  induction fields generalizing scope comparison with
  | nil =>
    unfold readParamFields at read
    cases comparison with
    | some comparison =>
      cases read
      exact ParamTerm.isNormal_make name scope comparison
    | none => cases read
  | cons field rest ih =>
    rw [readParamFields.eq_def] at read
    dsimp only at read
    split at read
    · exact ih read
    · split at read
      · obtain ⟨narrowed, _, others⟩ := exists_ok_of_bind read
        exact ih others
      · cases read
    · split at read
      · obtain ⟨narrowed, _, others⟩ := exists_ok_of_bind read
        exact ih others
      · cases read
    · obtain ⟨found, _, others⟩ := exists_ok_of_bind read
      split at others
      · cases others
      · exact ih others

theorem isNormal_readExtension {body : Json} {clause : Clause}
    (read : readExtension body = .ok clause) : clause.IsNormal := by
  unfold readExtension at read
  cases body with
  | obj fields =>
    dsimp only [bind, Except.bind, pure, Except.pure] at read
    split at read
    · cases read
    · split at read
      · split at read
        · cases read
          exact .extension _ _
        · split at read
          · cases read
            exact .extension _ _
          · cases read
        · cases read
      · cases read
  | _ => cases read

theorem isNormal_readParam {body : Json} {clause : Clause} (read : readParam body = .ok clause) :
    clause.IsNormal := by
  unfold readParam at read
  cases body with
  | obj fields =>
    simp only [pure_bind] at read
    split at read
    · obtain ⟨term, readFields, result⟩ := exists_ok_of_bind read
      cases result
      exact .param (isNormal_readParamFields readFields)
    · cases read
  | _ => cases read

mutual

/-- A clause that is read has its comparisons in order. -/
theorem isNormal_ofJson (json : Json) (clause : Clause) (read : ofJson json = .ok clause) :
    clause.IsNormal := by
  rw [ofJson.eq_def] at read
  split at read
  · cases read
    exact .bool _
  · exact isNormal_ofEntry _ _ clause read
  · split at read
    · obtain ⟨a, readA, rest⟩ := exists_ok_of_bind read
      obtain ⟨b, readB, result⟩ := exists_ok_of_bind rest
      cases result
      exact .ifThen (isNormal_ofJson _ a readA) (isNormal_ofJson _ b readB)
    · cases read
  · cases read
  · cases read
termination_by 2 * sizeOf json

theorem isNormal_ofEntry (key : String) (body : Json) (clause : Clause)
    (read : ofEntry key body = .ok clause) : clause.IsNormal := by
  rw [ofEntry.eq_def] at read
  split at read
  · obtain ⟨clauses, readList, rfl⟩ := exists_ok_of_map read
    exact .allOf (isNormal_ofList _ body clauses readList)
  · obtain ⟨clauses, readList, rfl⟩ := exists_ok_of_map read
    exact .anyOf (isNormal_ofList _ body clauses readList)
  · obtain ⟨clauses, readList, rfl⟩ := exists_ok_of_map read
    exact .oneOf (isNormal_ofList _ body clauses readList)
  · obtain ⟨clauses, readList, rfl⟩ := exists_ok_of_map read
    exact .noneOf (isNormal_ofList _ body clauses readList)
  · obtain ⟨operand, readOperand, rfl⟩ := exists_ok_of_map read
    exact .negation (isNormal_ofJson body operand readOperand)
  · exact isNormal_readExtension read
  · exact isNormal_readParam read
  · unfold readXlen at read
    split at read
    · cases read
    · split at read
      · cases read
        exact .xlen _
      · cases read
  · cases read
  · cases read
  · cases read
termination_by 2 * sizeOf body + 1

theorem isNormal_ofList (key : String) (body : Json) (clauses : List Clause)
    (read : ofList key body = .ok clauses) : ∀ clause ∈ clauses, clause.IsNormal := by
  rw [ofList.eq_def] at read
  split at read
  · cases read
  · exact isNormal_ofItems _ clauses read
  · cases read
termination_by 2 * sizeOf body

theorem isNormal_ofItems (items : List Json) (clauses : List Clause)
    (read : ofItems items = .ok clauses) : ∀ clause ∈ clauses, clause.IsNormal := by
  rw [ofItems.eq_def] at read
  split at read
  · cases read
    nofun
  · obtain ⟨first, readFirst, rest⟩ := exists_ok_of_bind read
    obtain ⟨others, readOthers, result⟩ := exists_ok_of_bind rest
    cases result
    exact List.forall_mem_cons.mpr
      ⟨isNormal_ofJson _ first readFirst, isNormal_ofItems _ others readOthers⟩
termination_by 2 * sizeOf items

end

theorem isNormal_parse {text : String} {clause : Clause} (read : parse text = .ok clause) :
    clause.IsNormal := by
  unfold parse at read
  split at read
  · exact isNormal_ofJson _ clause read
  · cases read

end Reading

end Clause

end IsaLogic
