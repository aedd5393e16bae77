import Mathlib.Tactic.MkIffOfInductiveProp
import IsaLogic.Cnf.Dimacs
import IsaLogic.Proofs.Cnf.Encoding
import IsaLogic.Proofs.Formula.Proper
import IsaLogic.Proofs.Text.Reading

/-!
# Clause lists are read back from their text

The text of a clause list is a problem line and one line for each clause (`toList_text`).
Each line is read as what it was written for, whatever was read before: a clause line adds
its clause (`readLine_clauseLine`), so the clause lines add the clauses in order. What is
read is what was written if its numbers keep the bounds of the reader (`Fits`).

A conjunctive form of few enough terms has a clause list within these bounds, and is rebuilt
from what is read if none of its connectives collapses.
-/

namespace IsaLogic

namespace Cnf

open Text

/-- A literal keeps the bounds of the reader: it is a signed 32-bit word, for one of the variables. -/
@[mk_iff]
structure LiteralFits (numVars : Nat) (literal : Int) : Prop where
  nonzero : literal ≠ 0
  above : -(maxLiteral + 1 : Int) ≤ literal
  below : literal ≤ maxLiteral
  declared : literal.natAbs ≤ numVars

/-- The numbers of a clause list keep the bounds of the reader, where counts are 64-bit words. -/
@[mk_iff]
structure Fits (cnf : Cnf) : Prop where
  numVars : cnf.numVars ≤ maxCount
  count : cnf.clauses.length ≤ maxCount
  literals : ∀ clause ∈ cnf.clauses, ∀ literal ∈ clause, LiteralFits cnf.numVars literal

instance (numVars : Nat) (literal : Int) : Decidable (LiteralFits numVars literal) :=
  decidable_of_iff' _ (literalFits_iff numVars literal)

instance (cnf : Cnf) : Decidable cnf.Fits := decidable_of_iff' _ (fits_iff cnf)

section Lines

/-- The words of a clause. -/
def literalWords (clause : List Int) : List (List Char) :=
  clause.map fun literal => (toString literal).toList

/-- The line of a clause: its literals, and a zero. -/
def clauseLine (clause : List Int) : List Char := spaced (literalWords clause) ['0']

/-- The words of the problem line that stand after its first letter, less the last. -/
def headerWords (numVars : Nat) : List (List Char) := ["cnf".toList, (toString numVars).toList]

/-- The problem line. -/
def problemLine (numVars count : Nat) : List Char :=
  spaced (['p'] :: headerWords numVars) (toString count).toList

theorem toList_text (cnf : Cnf) :
    cnf.text.toList = (problemLine cnf.numVars cnf.clauses.length ::
      cnf.clauses.map clauseLine).flatMap (· ++ ['\n']) := by
  simp [text, problemLine, headerWords, clauseLine, literalWords, spaced, List.flatMap_map]

theorem isWord_of_mem_literalWords {clause : List Int} :
    ∀ word ∈ literalWords clause, IsWord word := by
  intro word member
  obtain ⟨literal, _, rfl⟩ := List.mem_map.mp member
  exact isWord_toString_int literal

theorem isWord_of_mem_headerWords {numVars : Nat} :
    ∀ word ∈ headerWords numVars, IsWord word := by
  refine List.forall_mem_cons.mpr ⟨⟨nofun, by simp [isBlank]⟩, ?_⟩
  exact List.forall_mem_singleton.mpr (isWord_toString_nat numVars)

theorem isWord_zero : IsWord ['0'] := isWord_toString_nat 0

theorem isWord_problem : IsWord ['p'] := ⟨nofun, List.forall_mem_singleton.mpr rfl⟩

theorem isLine_clauseLine (clause : List Int) : IsLine (clauseLine clause) :=
  isLine_spaced isWord_of_mem_literalWords isWord_zero

theorem isLine_problemLine (numVars count : Nat) : IsLine (problemLine numVars count) :=
  isLine_spaced (List.forall_mem_cons.mpr ⟨isWord_problem, isWord_of_mem_headerWords⟩)
    (isWord_toString_nat count)

/-- A clause line starts with the sign or a digit of a number. -/
theorem exists_head_clauseLine (clause : List Int) :
    ∃ c rest, clauseLine clause = c :: rest ∧ (c = '-' ∨ c.isDigit = true) := by
  cases clause with
  | nil => exact ⟨'0', [], rfl, .inr rfl⟩
  | cons literal clause =>
    obtain ⟨c, rest, written, numeral⟩ := exists_head_toString_int literal
    refine ⟨c, rest ++ ' ' :: clauseLine clause, ?_, numeral⟩
    rw [← List.cons_append, ← written]
    exact spaced_cons (toString literal).toList (literalWords clause) ['0']

end Lines

section Reading

variable {line numVars count : Nat} {clause : List Int} {clauses : List (List Int)}
  {state : Partial}

theorem readLine_problemLine (few : numVars ≤ maxCount) (counted : count ≤ maxCount) :
    readLine line state (problemLine numVars count) =
      .ok (some { state with numVars := some numVars }) := by
  have header : Text.words (' ' :: spaced (headerWords numVars) (toString count).toList) =
      headerWords numVars ++ [(toString count).toList] := by
    rw [words_cons_blank rfl, words_spaced isWord_of_mem_headerWords (isWord_toString_nat count)]
  have fields : readProblem line (headerWords numVars ++ [(toString count).toList]) =
      .ok numVars := by
    change readProblem line ["cnf".toList, (toString numVars).toList, (toString count).toList] = _
    rw [readProblem, if_pos rfl, readNat_toString few, readNat_toString counted]
  have trimmed : trim (problemLine numVars count) = problemLine numVars count :=
    trim_spaced (List.forall_mem_cons.mpr ⟨isWord_problem, isWord_of_mem_headerWords⟩)
      (isWord_toString_nat count)
  rw [readLine, trimmed, problemLine, spaced_cons]
  change (readProblem line (Text.words (' ' :: spaced _ _))).map _ = _
  rw [header, fields]
  rfl

/-- The literals of a clause are added to the clause that is being read. -/
theorem readLiterals_append (fits : ∀ literal ∈ clause, LiteralFits numVars literal)
    (rest : List (List Char)) :
    readLiterals line numVars state (literalWords clause ++ rest) =
      readLiterals line numVars { state with current := clause.reverse ++ state.current } rest := by
  induction clause generalizing state with
  | nil => rfl
  | cons literal clause ih =>
    obtain ⟨first, later⟩ := List.forall_mem_cons.mp fits
    change readLiterals line numVars state
      ((toString literal).toList :: (literalWords clause ++ rest)) = _
    rw [readLiterals, readInt_toString first.above first.below]
    dsimp only
    rw [if_neg first.nonzero, if_neg (Nat.not_lt.mpr first.declared), ih later,
      List.reverse_cons, List.append_assoc, List.singleton_append]

/-- A zero ends the clause that is being read. -/
theorem readLiterals_zero :
    readLiterals line numVars state [['0']] =
      .ok { state with clauses := state.current.reverse :: state.clauses, current := [] } := rfl

/-- A line of literals is read as such. -/
theorem readLine_clauseLine (fits : ∀ literal ∈ clause, LiteralFits numVars literal) :
    readLine line ⟨some numVars, clauses, []⟩ (clauseLine clause) =
      .ok (some ⟨some numVars, clause :: clauses, []⟩) := by
  have literals : readLiterals line numVars ⟨some numVars, clauses, []⟩
      (Text.words (clauseLine clause)) = .ok ⟨some numVars, clause :: clauses, []⟩ := by
    rw [clauseLine, words_spaced isWord_of_mem_literalWords isWord_zero, readLiterals_append fits,
      readLiterals_zero, List.append_nil, List.reverse_reverse]
  have trimmed : trim (clauseLine clause) = clauseLine clause :=
    trim_spaced isWord_of_mem_literalWords isWord_zero
  obtain ⟨c, rest, written, numeral⟩ := exists_head_clauseLine clause
  rw [written] at literals trimmed ⊢
  unfold readLine
  rw [trimmed]
  -- no number starts like a comment, the end or a problem line
  split
  · contradiction
  · cases ‹_ :: _ = _›
    exact absurd numeral (by decide)
  · cases ‹_ :: _ = _›
    exact absurd numeral (by decide)
  · cases ‹_ :: _ = _›
    exact absurd numeral (by decide)
  · dsimp only
    rw [literals]
    rfl

/-- Clause lines add their clauses in order. -/
theorem readLines_clauseLines
    (fits : ∀ clause ∈ clauses, ∀ literal ∈ clause, LiteralFits numVars literal)
    (earlier : List (List Int)) :
    readLines line ⟨some numVars, earlier, []⟩ (clauses.map clauseLine) =
      .ok ⟨some numVars, clauses.reverse ++ earlier, []⟩ := by
  induction clauses generalizing line earlier with
  | nil => rfl
  | cons clause clauses ih =>
    obtain ⟨first, later⟩ := List.forall_mem_cons.mp fits
    rw [List.map_cons, readLines, readLine_clauseLine first]
    dsimp only
    rw [ih later, List.reverse_cons, List.append_assoc, List.singleton_append]

/-- A clause list is read back from its text. -/
theorem parse_text {cnf : Cnf} (fits : cnf.Fits) : parse cnf.text.toList = .ok cnf := by
  have areLines : ∀ line ∈ problemLine cnf.numVars cnf.clauses.length ::
      cnf.clauses.map clauseLine, IsLine line := by
    refine List.forall_mem_cons.mpr ⟨isLine_problemLine cnf.numVars cnf.clauses.length, ?_⟩
    exact List.forall_mem_map.mpr fun clause _ => isLine_clauseLine clause
  have read : readLines 1 {} (Text.lines cnf.text.toList) =
      .ok ⟨some cnf.numVars, cnf.clauses.reverse, []⟩ := by
    rw [toList_text, lines_ended areLines, readLines,
      readLine_problemLine fits.numVars fits.count]
    dsimp only
    rw [readLines_clauseLines fits.literals, List.append_nil]
  rw [parse, read]
  change Except.ok (⟨cnf.numVars, cnf.clauses.reverse.reverse⟩ : Cnf) = _
  rw [List.reverse_reverse]

end Reading

end Cnf

namespace Encoding

open Text

section Reading

variable {f : Formula} {terms : List Term} {groups : List (List Literal)}

/-- The literals over few enough terms are words for one of the variables. -/
theorem literalFits_numbered (listed : ∀ group ∈ groups, ∀ literal ∈ group, literal.term ∈ terms)
    (few : terms.length < 2 ^ 31) :
    ∀ clause ∈ (numbered terms groups).clauses, ∀ literal ∈ clause,
      Cnf.LiteralFits terms.length literal := by
  intro clause member literal inside
  obtain ⟨first, last⟩ := natAbs_of_mem_numbered listed clause member literal inside
  refine ⟨?nonzero, ?above, ?below, last⟩
  case nonzero => exact Int.natAbs_pos.mp first
  all_goals
    rw [maxLiteral]
    omega

/-- The clause list of few enough terms keeps the bounds of the reader. -/
theorem fits_numbered (listed : ∀ group ∈ groups, ∀ literal ∈ group, literal.term ∈ terms)
    (few : terms.length < 2 ^ 31) (counted : groups.length ≤ maxCount) :
    (numbered terms groups).Fits where
  numVars := by
    change terms.length ≤ 18446744073709551615
    omega
  count := by rwa [List.length_map]
  literals := literalFits_numbered listed few

/-- A proper conjunctive form is rebuilt from its clause list. -/
theorem toFormula_of_isCnf (proper : f.isProper) (flat : f.isCnf = true) :
    toFormula f.terms (numbered f.terms (f.groups .conjunctive)) = .ok f := by
  rw [toFormula_numbered (listed_groups flat)]
  exact congrArg Except.ok (Formula.ofGroups_groups flat proper)

/-- The text of a clause list within the bounds of the reader is read as that list. A proper
conjunctive form of few enough terms has a clause list, whose literals are for its terms, and what
is read of the text of that list stands for the form. The number of operands is bounded since the
problem line gives the number of clauses as a 64-bit word. -/
theorem text_lossless :
    (∀ cnf : Cnf, cnf.Fits → Cnf.parse cnf.text.toList = .ok cnf) ∧
      ∀ f : Formula, f.isProper → f.isCnf → f.terms.length < 2 ^ 31 →
        f.operands.length ≤ maxCount →
        ∃ encoding, ofFormula f = .ok encoding ∧
          (∀ clause ∈ encoding.cnf.clauses, ∀ literal ∈ clause,
            1 ≤ literal.natAbs ∧ literal.natAbs ≤ encoding.cnf.numVars) ∧
          (Cnf.parse encoding.cnf.text.toList).bind (toFormula encoding.terms) = .ok f := by
  refine ⟨fun cnf => Cnf.parse_text, fun f proper flat few counted => ?_⟩
  have listed := listed_groups flat
  have groupsCounted : (f.groups .conjunctive).length ≤ maxCount :=
    (Formula.length_groups_le .conjunctive f).trans (max_le (by decide) counted)
  refine ⟨_, ofFormula_of_isCnf flat, natAbs_of_mem_numbered listed, ?_⟩
  rw [Cnf.parse_text (fits_numbered listed few groupsCounted)]
  exact toFormula_of_isCnf proper flat

/-- An empty clause between literals at both ends of a word, and a form with a clause of its own
for one literal. -/
theorem text_lossless_ends :
    let cnf : Cnf := ⟨2147483648, [[-2147483648, 2147483647], [], [1, -1]]⟩
    let f : Formula :=
      .conj [.disj [.atom (.xlen .rv64), .neg (.atom (.free 0))], .neg (.atom (.xlen .rv64))]
    Cnf.parse cnf.text.toList = .ok cnf ∧
      ∃ encoding, ofFormula f = .ok encoding ∧
        (∀ clause ∈ encoding.cnf.clauses, ∀ literal ∈ clause,
          1 ≤ literal.natAbs ∧ literal.natAbs ≤ encoding.cnf.numVars) ∧
        (Cnf.parse encoding.cnf.text.toList).bind (toFormula encoding.terms) = .ok f := by
  intro cnf f
  exact ⟨text_lossless.1 cnf (by decide),
    text_lossless.2 f (by decide) (by decide) (by cbv) (by decide)⟩

end Reading

end Encoding

end IsaLogic
