import IsaLogic.Cnf.Encoding
import IsaLogic.Proofs.Cnf.Search
import IsaLogic.Proofs.Computation
import IsaLogic.Proofs.Formula.TwoLevel

/-!
# Numbering the terms of a conjunctive form

A flat conjunctive form always has a clause list, its literals are in range, and
valuations of the numbers are valuations of the terms: each term is read at its
own number, and each number at the term behind it. The literals that the numbers
stand for are the ones that were numbered.
-/

namespace IsaLogic.Encoding

/-- The number of a literal over some terms. -/
def number (terms : List Term) (literal : Literal) : Int :=
  if literal.positive then (terms.idxOf literal.term : Int) + 1
  else -((terms.idxOf literal.term : Int) + 1)

theorem natAbs_number (terms : List Term) (literal : Literal) :
    (number terms literal).natAbs = terms.idxOf literal.term + 1 := by
  unfold number
  split <;> omega

/-- The number of a literal holds if its term has the literal's value at its number. -/
theorem literalHolds_number (valuation : Nat → Bool) (terms : List Term) (literal : Literal) :
    Cnf.literalHolds valuation (number terms literal) =
      literal.holds fun term => valuation (terms.idxOf term + 1) := by
  have sign : 0 < number terms literal ↔ literal.positive = true := by
    unfold number
    split
    · exact iff_of_true (by omega) ‹_›
    · exact iff_of_false (by omega) ‹_›
  rw [Cnf.literalHolds, natAbs_number, Literal.holds]
  cases positive : literal.positive with
  | true => rw [if_pos (sign.mpr positive), beq_true]
  | false => rw [if_neg (by simp [sign, positive]), beq_false]

/-- Clauses by the numbers of their literals over some terms. -/
abbrev numbered (terms : List Term) (groups : List (List Literal)) : Cnf where
  numVars := terms.length
  clauses := groups.map (·.map (number terms))

/-- A form that is read as clauses has a clause list. -/
theorem ofFormula_of_clauses? {f : Formula} {clauses : List (List Literal)}
    (read : f.clauses? = some clauses) :
    ofFormula f = .ok { cnf := numbered f.terms clauses, terms := f.terms } := by
  unfold ofFormula
  rw [read]
  rfl

theorem ofFormula_of_isCnf {f : Formula} (flat : f.isCnf = true) :
    ofFormula f = .ok { cnf := numbered f.terms (f.groups .conjunctive), terms := f.terms } :=
  ofFormula_of_clauses? (if_pos flat)

section Numbered

variable {terms : List Term} {groups : List (List Literal)}

/-- Each literal by number is for one of the terms. -/
theorem natAbs_of_mem_numbered
    (listed : ∀ group ∈ groups, ∀ literal ∈ group, literal.term ∈ terms) :
    ∀ clause ∈ (numbered terms groups).clauses, ∀ literal ∈ clause,
      1 ≤ literal.natAbs ∧ literal.natAbs ≤ terms.length := by
  intro clause member literal inside
  obtain ⟨group, inGroups, rfl⟩ := List.mem_map.mp member
  obtain ⟨l, inGroup, rfl⟩ := List.mem_map.mp inside
  rw [natAbs_number]
  exact ⟨Nat.le_add_left 1 _, List.idxOf_lt_length_of_mem (listed group inGroups l inGroup)⟩

theorem inRange_numbered (listed : ∀ group ∈ groups, ∀ literal ∈ group, literal.term ∈ terms) :
    Cnf.InRange ((numbered terms groups).numVars + 1) (numbered terms groups).clauses :=
  fun clause member literal inside =>
    Nat.lt_succ_of_le (natAbs_of_mem_numbered listed clause member literal inside).2

/-- Clauses by numbers hold under the same valuations, read through the numbers. -/
theorem clausesHold_numbered (terms : List Term) (groups : List (List Literal))
    (valuation : Nat → Bool) :
    Cnf.clausesHold valuation (numbered terms groups).clauses =
      Formula.groupsHold .conjunctive (fun term => valuation (terms.idxOf term + 1)) groups := by
  simp only [Cnf.clausesHold, Formula.groupsHold, List.all_map, List.any_map, Function.comp_def,
    literalHolds_number]

/-- Clauses and the same clauses by numbers are satisfiable in the same cases. -/
theorem exists_clausesHold_numbered
    (listed : ∀ group ∈ groups, ∀ literal ∈ group, literal.term ∈ terms) :
    (∃ valuation, Cnf.clausesHold valuation (numbered terms groups).clauses = true) ↔
      ∃ valuation, Formula.groupsHold .conjunctive valuation groups = true := by
  constructor
  · rintro ⟨valuation, truth⟩
    exact ⟨_, (clausesHold_numbered terms groups valuation).symm.trans truth⟩
  · rintro ⟨valuation, truth⟩
    -- a number is given the value of the term behind it
    refine ⟨fun place => valuation (terms[place - 1]?.getD default), ?_⟩
    rw [clausesHold_numbered, ← truth]
    refine all_congr_of_mem fun group inGroups => any_congr_of_mem fun literal inGroup => ?_
    have member := listed group inGroups literal inGroup
    have placed := List.idxOf_lt_length_of_mem member
    rw [Literal.holds, Literal.holds, Nat.add_sub_cancel, List.getElem?_eq_getElem placed,
      Option.getD_some, List.getElem_idxOf]

end Numbered

section Decoding

variable {terms : List Term}

/-- The number of a literal stands for it. -/
theorem decodeLiteral_number {literal : Literal} (listed : literal.term ∈ terms) :
    decodeLiteral terms (number terms literal) = .ok literal := by
  have placed := List.idxOf_lt_length_of_mem listed
  have sign : decide (0 < number terms literal) = literal.positive := by
    unfold number
    cases literal.positive with
    | true => exact decide_eq_true (by rw [if_pos rfl]; omega)
    | false => exact decide_eq_false (by rw [if_neg Bool.false_ne_true]; omega)
  unfold decodeLiteral
  rw [natAbs_number]
  simp only [List.getElem?_eq_getElem placed, List.getElem_idxOf, sign]

/-- The numbers of the literals of a clause stand for the clause. -/
theorem decodeClause_number {group : List Literal} (listed : ∀ literal ∈ group, literal.term ∈ terms) :
    decodeClause terms (group.map (number terms)) = .ok group := by
  have each := mapM_eq_map fun literal member => decodeLiteral_number (listed literal member)
  rw [List.map_id'] at each
  rw [decodeClause, List.mapM_map]
  exact each

/-- Clauses by numbers are the form of the clauses. -/
theorem toFormula_numbered {groups : List (List Literal)}
    (listed : ∀ group ∈ groups, ∀ literal ∈ group, literal.term ∈ terms) :
    toFormula terms (numbered terms groups) = .ok (Formula.ofClauses groups) := by
  have each := mapM_eq_map fun group member => decodeClause_number (listed group member)
  rw [List.map_id'] at each
  rw [toFormula, List.mapM_map]
  exact congrArg (Except.map Formula.ofClauses) each

/-- The clause at a place of an encoded form is the clause that was encoded. -/
theorem clauseFormula_numbered {groups : List (List Literal)} {place : Nat}
    {group : List Literal} (listed : ∀ literal ∈ group, literal.term ∈ terms)
    (here : groups[place]? = some group) :
    clauseFormula { cnf := numbered terms groups, terms } place =
      .ok (Formula.anyOf (group.map Literal.toFormula)) := by
  unfold clauseFormula
  rw [List.getElem?_map, here, Option.map_some]
  dsimp only
  rw [decodeClause_number listed]
  rfl

end Decoding

section Satisfiability

variable {f : Formula}

theorem listed_groups (flat : f.isCnf = true) :
    ∀ group ∈ f.groups .conjunctive, ∀ literal ∈ group, literal.term ∈ f.terms :=
  fun _ inGroups _ inGroup =>
    Formula.mem_terms.mpr (Formula.term_mem_of_groups .conjunctive flat inGroups inGroup)

/-- A conjunctive form and its clause list are satisfiable in the same cases. -/
theorem exists_clausesHold_iff (flat : f.isCnf = true) :
    (∃ valuation, Cnf.clausesHold valuation (numbered f.terms (f.groups .conjunctive)).clauses =
      true) ↔ f.Satisfiable := by
  rw [exists_clausesHold_numbered (listed_groups flat)]
  exact exists_congr fun valuation => by rw [Formula.groupsHold_groups .conjunctive valuation flat]

/-- Encoding a conjunctive form and searching the clause list decides the form. -/
theorem solve_ofFormula {f : Formula} (flat : f.isCnf = true) :
    ∃ encoding, ofFormula f = .ok encoding ∧
      (encoding.cnf.solve.isSatisfiable = true ↔ f.Satisfiable) := by
  refine ⟨_, ofFormula_of_isCnf flat, ?_⟩
  rw [Cnf.isSatisfiable_solve_iff (inRange_numbered (listed_groups flat)),
    exists_clausesHold_iff flat]

end Satisfiability

end IsaLogic.Encoding
