import IsaLogic.Proofs.Ascending
import IsaLogic.Proofs.Cnf.Codec

/-!
# Models are read back as assignments

A list of signed numbers is read as a valuation of the variables: those whose number is in
the list are true, and all others are false (`listed`). Read back over the terms of a
conjunctive form it is an assignment, and the form holds under it just if the clauses hold
under the list (`holds_decodeModel`), whether or not the list has every variable.

The search gives each variable one sign (`IsModel`), so a negative literal of what it found
holds because the variable's number is not in the list (`IsModel.clausesHold`).
-/

namespace IsaLogic

namespace Cnf

/-- The valuation that a list of literals describes: a variable is true if its number is there. -/
def listed (model : List Int) (number : Nat) : Bool := model.contains (number : Int)

variable {numVars : Nat} {clauses : List (List Int)} {model : List Int}

/-- What has one sign for each variable makes its own literals true. -/
theorem IsModel.literalHolds (isModel : IsModel numVars clauses model) {literal : Int}
    (member : literal ∈ model) : literalHolds (listed model) literal = true := by
  have oneSign : (model.map Int.natAbs).Nodup := isModel.numbers ▸ List.nodup_range'
  have isVariable : 1 ≤ literal.natAbs := by
    have inRange : literal.natAbs ∈ List.range' 1 numVars :=
      isModel.numbers ▸ List.mem_map_of_mem member
    exact (List.mem_range'_1.mp inRange).1
  unfold Cnf.literalHolds
  split
  · have itself : (literal.natAbs : Int) = literal := by omega
    rwa [listed, itself, List.contains_iff_mem]
  · rw [Bool.not_eq_true', Bool.eq_false_iff, listed, Ne, List.contains_iff_mem]
    intro opposite
    have same : (literal.natAbs : Int) = literal :=
      List.inj_on_of_nodup_map oneSign opposite member (Int.natAbs_natCast literal.natAbs)
    omega

/-- The clauses hold under a model of them. -/
theorem IsModel.clausesHold (isModel : IsModel numVars clauses model) :
    clausesHold (listed model) clauses = true := by
  refine List.all_eq_true.mpr fun clause member => ?_
  obtain ⟨literal, inClause, inModel⟩ := isModel.satisfies clause member
  exact List.any_eq_true.mpr ⟨literal, inClause, isModel.literalHolds inModel⟩

end Cnf

namespace Encoding

open Text

/-- A term is read back as true if its number is in the list. -/
theorem value_decodeModel {terms : List Term} {term : Term} (member : term ∈ terms) (cnf : Cnf)
    (model : List Int) :
    (decodeModel { cnf, terms } model).value term = Cnf.listed model (terms.idxOf term + 1) := by
  -- the terms that come first take the numbers before
  have placed : ∀ (terms : List Term) (start : Nat), term ∈ terms →
      lookup? term ((terms.zipIdx start).map fun entry =>
        (entry.1, model.contains ((entry.2 : Int) + 1))) =
        some (Cnf.listed model (start + terms.idxOf term + 1)) := by
    intro terms
    induction terms with
    | nil => exact fun _ member => nomatch member
    | cons first rest ih =>
      intro start member
      rw [List.zipIdx_cons, List.map_cons, lookup?_cons, List.idxOf_cons]
      by_cases here : first = term
      · rw [if_pos here, beq_iff_eq.mpr here]
        rfl
      · have later : term ∈ rest := (List.mem_cons.mp member).resolve_left (Ne.symm here)
        rw [if_neg here, ih (start + 1) later, beq_false_of_ne here, cond_false]
        congr 2
        omega
  have entry : lookup? term (decodeModel { cnf, terms } model) = _ := placed terms 0 member
  rw [Assignment.value, entry, Option.getD_some, Nat.zero_add]

variable {f : Formula}

/-- A conjunctive form holds under the assignment read back from a list just if its clauses hold
under the list. -/
theorem holds_decodeModel (flat : f.isCnf = true) (model : List Int) :
    f.holds (decodeModel ⟨numbered f.terms (f.groups .conjunctive), f.terms⟩ model).value =
      Cnf.clausesHold (Cnf.listed model) (numbered f.terms (f.groups .conjunctive)).clauses := by
  rw [clausesHold_numbered, Formula.groupsHold_groups .conjunctive _ flat]
  exact Formula.holds_congr fun term member =>
    value_decodeModel (Formula.mem_terms.mpr member) _ model

/-- The answer of a search settles a form: a model is read back as an assignment under which the
form holds, and without a model the form holds under no valuation. -/
def Settles (encoding : Encoding) (f : Formula) : SatResult → Prop
  | .satisfiable model => f.holds (encoding.decodeModel model).value = true
  | .unsatisfiable => ∀ valuation, f.holds valuation = false

theorem settles_solve (flat : f.isCnf = true) :
    Settles ⟨numbered f.terms (f.groups .conjunctive), f.terms⟩ f
      (numbered f.terms (f.groups .conjunctive)).solve := by
  have inRange : ∀ clause ∈ (numbered f.terms (f.groups .conjunctive)).clauses,
      ∀ literal ∈ clause, literal ≠ 0 ∧ literal.natAbs ≤ f.terms.length := by
    intro clause member literal inside
    obtain ⟨first, last⟩ := natAbs_of_mem_numbered (listed_groups flat) clause member literal inside
    exact ⟨Int.natAbs_pos.mp first, last⟩
  have places : Cnf.InRange (f.terms.length + 1)
      (numbered f.terms (f.groups .conjunctive)).clauses := fun clause member literal inside =>
    Nat.lt_succ_of_le (inRange clause member literal inside).2
  unfold Cnf.solve
  split
  · rename_i model found
    exact (holds_decodeModel flat model).trans (Cnf.isModel_of_findModel inRange found).clausesHold
  · rename_i notFound
    intro valuation
    have unsatisfiable : ¬ f.Satisfiable := fun satisfiable =>
      (Cnf.findModel_eq_none_iff places).mp notFound ((exists_clausesHold_iff flat).mpr satisfiable)
    exact Bool.eq_false_iff.mpr fun holds => unsatisfiable ⟨valuation, holds⟩

/-- Models of the clause list of a conjunctive form are read back as assignments under which the
form holds, and nothing else is. The literals of the list are words for the terms of the form. A
list of signed numbers is read back as an assignment under which the form holds just if the clauses
hold where the numbers in the list are true and all others false. The search finds a list of this
kind, or the form holds under no valuation. -/
theorem decodeModel_exact (flat : f.isCnf = true) (few : f.terms.length < 2 ^ 31) :
    ∃ encoding, ofFormula f = .ok encoding ∧
      (∀ clause ∈ encoding.cnf.clauses, ∀ literal ∈ clause,
        Cnf.LiteralFits encoding.cnf.numVars literal) ∧
      (∀ model, f.holds (encoding.decodeModel model).value =
        Cnf.clausesHold (Cnf.listed model) encoding.cnf.clauses) ∧
      encoding.Settles f encoding.cnf.solve :=
  ⟨_, ofFormula_of_isCnf flat, literalFits_numbered (listed_groups flat) few,
    holds_decodeModel flat, settles_solve flat⟩

/-- A list that leaves out two of three variables, and one that is no model of the clauses. -/
theorem decodeModel_exact_unlisted :
    let f : Formula :=
      .conj [.disj [.atom (.xlen .rv64), .neg (.atom (.free 0))], .neg (.atom (.xlen .rv32))]
    let encoding : Encoding := ⟨⟨3, [[2, -3], [-1]]⟩, [.xlen .rv32, .xlen .rv64, .free 0]⟩
    f.isCnf = true ∧ f.terms.length < 2 ^ 31 ∧ ofFormula f = .ok encoding ∧
      f.holds (encoding.decodeModel [2]).value = true ∧
      f.holds (encoding.decodeModel [3, -2]).value = false ∧
      encoding.Settles f encoding.cnf.solve := by
  intro f encoding
  have flat : f.isCnf = true := by decide
  have few : f.terms.length < 2 ^ 31 := by cbv
  have written : ofFormula f = .ok encoding := by cbv
  obtain ⟨other, encoded, _, decoded, settled⟩ := decodeModel_exact flat few
  cases written.symm.trans encoded
  exact ⟨flat, few, written, (decoded [2]).trans (by decide), (decoded [3, -2]).trans (by decide),
    settled⟩

end Encoding

end IsaLogic
