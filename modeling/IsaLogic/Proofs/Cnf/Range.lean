import IsaLogic.Cnf.Dimacs
import IsaLogic.Proofs.Cnf.Within
import IsaLogic.Proofs.Computation
import IsaLogic.Proofs.Text.Declared

/-!
# How far the literals of a text reach

Every literal that is read is nonzero and for a variable among those declared by the problem
line last before it (`Bounded`). A later problem line may declare fewer, and its count is the
one of the clause list that is read, so literals are out of range in some texts. They are in
range where no clause line stands under a larger count than the last one, in particular where
there is one problem line; then the search stays within its table.
-/

namespace IsaLogic.Cnf

open Text

/-- The kinds of lines: problem lines declare a number of variables, and lines of literals are
held against it. -/
def lineKinds : LineKinds where
  declared? line :=
    if (trim line).head? = some 'p' then
      (words (trim line).tail)[1]?.bind fun numVars => (readNat maxCount numVars).toOption
    else none
  isData line := (trim line).head?.any fun first => first != 'c' && first != '%' && first != 'p'
  isEnd line := (trim line).head? == some '%'

/-- The literals that have been read, of complete clauses and of the open one. -/
def Partial.literals (state : Partial) : List Int := state.clauses.flatten ++ state.current

/-- Each literal is nonzero and for one of as many variables as some count says. -/
def Bounded (counts : List Nat) (literals : List Int) : Prop :=
  ∀ literal ∈ literals, literal ≠ 0 ∧ ∃ count ∈ counts, literal.natAbs ≤ count

/-- More counts are no harm. -/
theorem Bounded.append {counts : List Nat} {literals : List Int} (bounded : Bounded counts literals)
    (more : List Nat) : Bounded (counts ++ more) literals := by
  intro literal member
  obtain ⟨nonzero, count, isCount, within⟩ := bounded literal member
  exact ⟨nonzero, count, List.mem_append_left more isCount, within⟩

section Reading

variable {line numVars : Nat} {state next : Partial} {raw : List Char} {counts : List Nat}

theorem numVars_of_readProblem {fields : List (List Char)}
    (read : readProblem line fields = .ok numVars) :
    ∃ format text count, fields = [format, text, count] ∧ readNat maxCount text = .ok numVars := by
  unfold readProblem at read
  split at read
  · rename_i format text count
    split at read
    · split at read
      · rename_i n _ known _
        cases read
        exact ⟨format, text, count, rfl, known⟩
      · cases read
      · cases read
    · cases read
  · cases read

theorem mem_literals {literal : Int} : literal ∈ state.literals ↔
    (∃ clause ∈ state.clauses, literal ∈ clause) ∨ literal ∈ state.current := by
  rw [Partial.literals, List.mem_append, List.mem_flatten]

/-- The words of a line add literals that are nonzero and within the count. -/
theorem mem_literals_of_readLiterals {list : List (List Char)}
    (read : readLiterals line numVars state list = .ok next) :
    next.numVars = state.numVars ∧ ∀ literal ∈ next.literals,
      literal ∈ state.literals ∨ (literal ≠ 0 ∧ literal.natAbs ≤ numVars) := by
  induction list generalizing state with
  | nil =>
    cases read
    exact ⟨rfl, fun _ => .inl⟩
  | cons word list ih =>
    rw [readLiterals] at read
    split at read
    · cases read
    rename_i new _
    split at read
    · obtain ⟨same, added⟩ := ih read
      refine ⟨same, fun literal member => (added literal member).imp_left fun known => ?_⟩
      simpa [mem_literals, or_comm] using known
    rename_i nonzero
    split at read
    · cases read
    rename_i within
    obtain ⟨same, added⟩ := ih read
    refine ⟨same, fun literal member => ?_⟩
    rcases added literal member with known | isNew
    · rcases mem_literals.mp known with inClause | isOpen
      · exact .inl (mem_literals.mpr (.inl inClause))
      · rcases List.mem_cons.mp isOpen with rfl | earlier
        · exact .inr ⟨nonzero, Nat.le_of_not_lt within⟩
        · exact .inl (mem_literals.mpr (.inr earlier))
    · exact .inr isNew

/-- What a line does: it ends the text, is skipped, declares a number of variables, or adds the
literals of its words under the number in force. -/
inductive Does (line : Nat) (raw : List Char) (state : Partial) : Option Partial → Prop where
  | ends (isEnd : lineKinds.isEnd raw = true) : Does line raw state none
  | skips (goesOn : lineKinds.isEnd raw = false) (declared : lineKinds.declared? raw = none) :
    Does line raw state (some state)
  | declares {numVars : Nat} (goesOn : lineKinds.isEnd raw = false)
    (declared : lineKinds.declared? raw = some numVars) :
    Does line raw state (some { state with numVars := some numVars })
  | adds {numVars : Nat} {next : Partial} (goesOn : lineKinds.isEnd raw = false)
    (declared : lineKinds.declared? raw = none) (isData : lineKinds.isData raw = true)
    (inForce : state.numVars = some numVars)
    (added : readLiterals line numVars state (words (trim raw)) = .ok next) :
    Does line raw state (some next)

theorem does_of_readLine {result : Option Partial} (read : readLine line state raw = .ok result) :
    Does line raw state result := by
  unfold readLine at read
  split at read
  · rename_i trimmed
    cases read
    refine .skips ?_ ?_ <;> simp [lineKinds, trimmed]
  · rename_i trimmed
    cases read
    refine .skips ?_ ?_ <;> simp [lineKinds, trimmed]
  · rename_i trimmed
    cases read
    exact .ends (by simp [lineKinds, trimmed])
  · rename_i header trimmed
    obtain ⟨numVars, problem, rfl⟩ := exists_ok_of_map read
    obtain ⟨format, text, count, fields, known⟩ := numVars_of_readProblem problem
    refine .declares ?_ ?_
    · simp [lineKinds, trimmed]
    · simp [lineKinds, trimmed, fields, known, Except.toOption]
  · rename_i notEmpty notComment notEnd notProblem
    obtain ⟨first, rest, trimmed⟩ := List.exists_cons_of_ne_nil notEmpty
    have other : first ≠ 'c' ∧ first ≠ '%' ∧ first ≠ 'p' := by
      refine ⟨?_, ?_, ?_⟩ <;> rintro rfl
      · exact notComment rest trimmed
      · exact notEnd rest trimmed
      · exact notProblem rest trimmed
    split at read
    · cases read
    rename_i numVars inForce
    obtain ⟨next, added, rfl⟩ := exists_ok_of_map read
    refine .adds ?_ ?_ ?_ inForce added <;> simp [lineKinds, trimmed, other]

theorem follows_readLine : Follows lineKinds readLine Partial.numVars
    fun counts state => Bounded counts state.literals where
  ended read := by
    cases does_of_readLine read with
    | ends isEnd => exact isEnd
  step read := by
    cases does_of_readLine read with
    | skips goesOn declared =>
      rw [declared]
      exact ⟨goesOn, rfl, fun _ before => before.append _⟩
    | declares goesOn declared =>
      rw [declared]
      exact ⟨goesOn, rfl, fun _ before => before.append _⟩
    | @adds numVars _ goesOn declared isData inForce added =>
      obtain ⟨same, isNew⟩ := mem_literals_of_readLiterals added
      rw [declared, LineKinds.heldAgainst, if_pos isData, inForce]
      refine ⟨goesOn, same.trans inForce, fun earlier before literal member => ?_⟩
      rcases isNew literal member with known | ⟨nonzero, within⟩
      · exact before.append _ literal known
      · exact ⟨nonzero, numVars, List.mem_append_right earlier (List.mem_singleton.mpr rfl), within⟩

/-- Lines that are read are read one after another. -/
theorem reading_of_readLines {raws : List (List Char)}
    (read : readLines line state raws = .ok next) : Text.Reading readLine line state raws next := by
  refine .of_ok (fun _ _ => rfl) (fun number state raw rest => ?_) read
  rw [readLines]
  rcases readLine number state raw with _ | _ | _ <;> rfl

end Reading

variable {text : List Char} {cnf : Cnf}

/-- The clause list that is read holds the literals that were read, and the last count. -/
theorem exists_reading_of_parse (read : parse text = .ok cnf) :
    ∃ final, Reading readLine 1 {} (lines text) final ∧ final.numVars = some cnf.numVars ∧
      ∀ clause ∈ cnf.clauses, ∀ literal ∈ clause, literal ∈ final.literals := by
  obtain ⟨final, readAll, complete⟩ := exists_ok_of_bind read
  refine ⟨final, reading_of_readLines readAll, ?_⟩
  dsimp only at complete
  split at complete
  · cases complete
  · rename_i numVars declared
    cases complete
    refine ⟨declared, fun clause member literal inside => mem_literals.mpr ?_⟩
    -- an open clause at the end is the last of the clause list
    cases isEmpty : final.current.isEmpty with
    | true =>
      rw [isEmpty] at member
      exact .inl ⟨clause, List.mem_reverse.mp member, inside⟩
    | false =>
      rw [isEmpty] at member
      rcases List.mem_cons.mp (List.mem_reverse.mp member) with rfl | complete
      · exact .inr (List.mem_reverse.mp inside)
      · exact .inl ⟨clause, complete, inside⟩

/-- Every literal that is read is nonzero and for a variable among those declared last before its
line, and the clause list has as many variables as are declared last of all. If that is as many as
at any line of literals, then every literal is for a variable of the clause list, and the search
refuses no place of its table. -/
theorem parse_inRange (read : parse text = .ok cnf) :
    (∀ clause ∈ cnf.clauses, Bounded (lineKinds.inForce (lines text)) clause) ∧
      (lineKinds.declared (lines text)).getLast? = some cnf.numVars ∧
      ((∀ count ∈ lineKinds.inForce (lines text), count ≤ cnf.numVars) →
        (∀ clause ∈ cnf.clauses, ∀ literal ∈ clause,
          literal ≠ 0 ∧ literal.natAbs ≤ cnf.numVars) ∧
        cnf.solveWithin = .ok cnf.solve) := by
  obtain ⟨final, reading, declared, inFinal⟩ := exists_reading_of_parse read
  have nothing : Bounded [] ({} : Partial).literals := nofun
  obtain ⟨last, bounded⟩ := reading.follows follows_readLine nothing
  have eachBounded : ∀ clause ∈ cnf.clauses, Bounded (lineKinds.inForce (lines text)) clause :=
    fun clause member literal inside => bounded literal (inFinal clause member literal inside)
  refine ⟨eachBounded, ?_, fun enough => ?_⟩
  · rw [← declared, last, Option.or_none]
  · have inRange : ∀ clause ∈ cnf.clauses, ∀ literal ∈ clause,
        literal ≠ 0 ∧ literal.natAbs ≤ cnf.numVars := by
      intro clause member literal inside
      obtain ⟨nonzero, count, inForce, within⟩ := eachBounded clause member literal inside
      exact ⟨nonzero, Nat.le_trans within (enough count inForce)⟩
    exact ⟨inRange, solveWithin_eq fun clause member literal inside =>
      Nat.lt_succ_of_le (inRange clause member literal inside).2⟩

/-- A second problem line that declares more variables, inside a clause that spans lines. -/
theorem parse_inRange_redeclared :
    let text := "c\np cnf 2 1\n-2\np cnf 3 1\n1 3 0\n%\np cnf 1 1".toList
    let cnf : Cnf := ⟨3, [[-2, 1, 3]]⟩
    parse text = .ok cnf ∧ lineKinds.inForce (lines text) = [2, 3] ∧
      (∀ clause ∈ cnf.clauses, ∀ literal ∈ clause, literal ≠ 0 ∧ literal.natAbs ≤ cnf.numVars) ∧
      cnf.solveWithin = .ok cnf.solve := by
  intro text cnf
  have read : parse text = .ok cnf := rfl
  have inForce : lineKinds.inForce (lines text) = [2, 3] := rfl
  have inRange := (parse_inRange read).2.2 (by rw [inForce]; decide)
  exact ⟨read, inForce, inRange⟩

/-- A second problem line that declares fewer variables leaves a literal out of range, and the
search has no place for it. -/
theorem parse_out_of_range :
    let cnf : Cnf := ⟨1, [[3]]⟩
    parse "p cnf 3 1\n3 0\np cnf 1 1\n".toList = .ok cnf ∧
      (∃ clause ∈ cnf.clauses, ∃ literal ∈ clause, cnf.numVars < literal.natAbs) ∧
      cnf.solveWithin = .error 3 := by
  intro cnf
  have refused : propagatePassWithin (Array.replicate (cnf.numVars + 1) none) cnf.clauses =
      .error 3 := rfl
  refine ⟨rfl, by decide, ?_⟩
  rw [solveWithin, searchWithin, propagateWithin, refused]

end IsaLogic.Cnf
