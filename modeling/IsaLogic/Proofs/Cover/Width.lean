import IsaLogic.Cover.Pla
import IsaLogic.Proofs.Computation
import IsaLogic.Proofs.Cover.Cube
import IsaLogic.Proofs.Text.Declared

/-!
# How wide the rows of a text are

A row is kept if it is as wide as the number of inputs that was declared last before it says. A
later directive may declare another number, which is the one of the table that is read. So the
widths of the cubes are the numbers in force at their rows (`parse_width_iff`), and all cubes are
as wide as the table has inputs just where these numbers are the last one.
-/

namespace IsaLogic.Pla

open Text

/-- A line without its comment and the blanks around it. -/
def content (line : List Char) : List Char := trim (line.takeWhile (· != '#'))

/-- The name and the arguments of a directive. -/
def fields (line : List Char) : List (List Char) :=
  if (content line).head? = some '.' then words (content line).tail else []

/-- The kinds of lines: a directive declares the number of inputs, and the rows for which the output
is one are held against it. -/
def lineKinds : LineKinds where
  declared? line :=
    if (fields line).head? = some "i".toList then
      (fields line)[1]?.bind fun count => (readNat maxCount count).toOption
    else none
  isData line := (content line).head?.any (· != '.') &&
    ((words (content line))[1]? == some ['1'] || (words (content line))[1]? == some ['4'])
  isEnd line := (fields line).head? == some "e".toList || (fields line).head? == some "end".toList

section Reading

variable {line : Nat} {state next : Partial} {raw : List Char}

theorem length_of_readCube {row : List Char} {cube : Cube} (read : readCube line row = .ok cube) :
    cube.length = row.length := by
  induction row generalizing cube with
  | nil =>
    cases read
    rfl
  | cons c row ih =>
    rw [readCube] at read
    split at read
    · cases read
    · obtain ⟨rest, later, rfl⟩ := exists_ok_of_map read
      rw [List.length_cons, List.length_cons, ih later]

/-- What a line does: it ends the table, declares a number of inputs, adds a cube that is as wide
as the number in force, or leaves both as they are. -/
inductive Does (raw : List Char) (state : Partial) : Option Partial → Prop where
  | ends (isEnd : lineKinds.isEnd raw = true) : Does raw state none
  | declares {count} (goesOn : lineKinds.isEnd raw = false)
    (declared : lineKinds.declared? raw = some count) (noData : lineKinds.isData raw = false) :
    Does raw state (some { state with inputs := some count })
  | adds {cube} (goesOn : lineKinds.isEnd raw = false) (declared : lineKinds.declared? raw = none)
    (isData : lineKinds.isData raw = true) (wide : state.inputs = some cube.length) :
    Does raw state (some { state with cubes := state.cubes ++ [cube] })
  | leaves {next : Partial} (goesOn : lineKinds.isEnd raw = false)
    (declared : lineKinds.declared? raw = none) (noData : lineKinds.isData raw = false)
    (inputs : next.inputs = state.inputs) (cubes : next.cubes = state.cubes) :
    Does raw state (some next)

theorem does_of_readDirective {result : Option Partial} (noData : lineKinds.isData raw = false)
    (read : readDirective line state (fields raw) = .ok result) : Does raw state result := by
  unfold readDirective at read
  split at read
  · rename_i nothing
    cases read
    refine .leaves ?_ ?_ noData rfl rfl <;> simp [lineKinds, nothing]
  · rename_i name arguments written
    split at read
    · rename_i isInputs
      subst isInputs
      split at read
      · cases read
      · rename_i count rest
        split at read
        · rename_i n known
          cases read
          refine .declares ?_ ?_ noData
          · simp [lineKinds, written]
          · simp [lineKinds, written, known, Except.toOption]
        · cases read
    · rename_i notInputs
      split at read
      · rename_i isLabels
        subst isLabels
        cases read
        refine .leaves ?_ ?_ noData rfl rfl <;> simp [lineKinds, written]
      · split at read
        · rename_i isEnd
          cases read
          exact .ends (by simpa [lineKinds, written] using isEnd)
        · rename_i notEnd
          cases read
          refine .leaves ?_ (if_neg ?_) noData rfl rfl
          · simpa [lineKinds, written] using notEnd
          · simpa [written] using notInputs

theorem does_of_readRow (goesOn : lineKinds.isEnd raw = false)
    (declared : lineKinds.declared? raw = none) (isRow : (content raw).head?.any (· != '.') = true)
    (read : readRow line state (content raw) = .ok next) : Does raw state (some next) := by
  unfold readRow at read
  split at read
  · cases read
  rename_i width inputs
  split at read
  · rename_i input output rest written
    split at read
    · cases read
    rename_i isWidth
    split at read
    · rename_i isOn
      obtain ⟨cube, known, rfl⟩ := exists_ok_of_map read
      refine .adds goesOn declared ?_ ?_
      · simpa [lineKinds, written, isRow] using isOn
      · rw [inputs, length_of_readCube known, Decidable.not_not.mp isWidth]
    · rename_i notOn
      cases read
      refine .leaves goesOn declared ?_ rfl rfl
      simpa [lineKinds, written, isRow] using notOn
  · cases read

theorem does_of_readLine {result : Option Partial} (read : readLine line state raw = .ok result) :
    Does raw state result := by
  unfold readLine at read
  rw [← content] at read
  split at read
  · rename_i empty
    cases read
    refine .leaves ?_ ?_ ?_ rfl rfl <;> simp [lineKinds, fields, empty]
  · rename_i directive pointed
    have written : fields raw = words directive := by simp [fields, pointed]
    rw [← written] at read
    exact does_of_readDirective (by simp [lineKinds, pointed]) read
  · rename_i notEmpty notDirective
    have isRow : (content raw).head?.any (· != '.') = true := by
      obtain ⟨first, rest, starts⟩ := List.exists_cons_of_ne_nil notEmpty
      rw [starts, List.head?_cons, Option.any_some, bne_iff_ne]
      rintro rfl
      exact notDirective rest starts
    have noFields : fields raw = [] := by
      refine if_neg fun pointed => ?_
      rw [pointed] at isRow
      cases isRow
    obtain ⟨next, known, rfl⟩ := exists_ok_of_map read
    exact does_of_readRow (by simp [lineKinds, noFields]) (by simp [lineKinds, noFields]) isRow known

theorem follows_readLine : Follows lineKinds readLine Partial.inputs
    fun counts state => state.cubes.map List.length = counts where
  ended read := by
    cases does_of_readLine read with
    | ends isEnd => exact isEnd
  step read := by
    cases does_of_readLine read with
    | declares goesOn declared noData =>
      rw [declared, LineKinds.heldAgainst, if_neg (by simp [noData])]
      exact ⟨goesOn, rfl, fun earlier before => by rwa [List.append_nil]⟩
    | adds goesOn declared isData wide =>
      rw [declared, LineKinds.heldAgainst, if_pos isData, wide]
      refine ⟨goesOn, rfl, fun earlier before => ?_⟩
      rw [List.map_append, before]
      rfl
    | leaves goesOn declared noData inputs cubes =>
      rw [declared, LineKinds.heldAgainst, if_neg (by simp [noData])]
      exact ⟨goesOn, inputs, fun earlier before => by rwa [List.append_nil, cubes]⟩

/-- Lines that are read are read one after another. -/
theorem reading_of_readLines {raws : List (List Char)}
    (read : readLines line state raws = .ok next) : Text.Reading readLine line state raws next := by
  refine .of_ok (fun _ _ => rfl) (fun number state raw rest => ?_) read
  rw [readLines]
  rcases readLine number state raw with _ | _ | _ <;> rfl

end Reading

variable {text : List Char} {pla : Pla}

/-- The table that is read has the cubes that were read, and the last number of inputs. -/
theorem exists_reading_of_parse (read : parse text = .ok pla) :
    ∃ final, Text.Reading readLine 1 {} (lines text) final ∧ final.inputs = some pla.inputs ∧
      final.cubes = pla.cubes := by
  obtain ⟨final, readAll, complete⟩ := exists_ok_of_bind read
  refine ⟨final, reading_of_readLines readAll, ?_⟩
  split at complete
  · cases complete
  · rename_i inputs declared
    cases complete
    exact ⟨declared, rfl⟩

/-- Row by row the cubes of a table are as wide as the number of inputs that was declared last
before the row says, and the table has as many inputs as are declared last of all. So all cubes are
of the width of the table just where no row for which the output is one stands under another
number. -/
theorem parse_width_iff (read : parse text = .ok pla) :
    pla.cubes.map List.length = lineKinds.inForce (lines text) ∧
      (lineKinds.declared (lines text)).getLast? = some pla.inputs ∧
      (Cube.OfWidth pla.inputs pla.cubes ↔
        ∀ count ∈ lineKinds.inForce (lines text), count = pla.inputs) := by
  obtain ⟨final, reading, declared, cubes⟩ := exists_reading_of_parse read
  have nothing : ({} : Partial).cubes.map List.length = [] := rfl
  obtain ⟨last, widths⟩ := reading.follows follows_readLine nothing
  rw [cubes] at widths
  have inForce : pla.cubes.map List.length = lineKinds.inForce (lines text) := widths
  refine ⟨inForce, ?_, ?_⟩
  · rw [← declared, last, Option.or_none]
  · rw [← inForce, List.forall_mem_map, Cube.OfWidth]

/-- A number that is declared twice, a row for which the output is zero, and lines after the
end. -/
theorem parse_width_iff_redeclared :
    let text := ".i 3\n--- 0 # nothing\n.i 2\n1- 1\n.ilb a b\n.i 2\n-0 1\n.e\n.i 7".toList
    let pla : Pla := ⟨2, ["a", "b"], [[some true, none], [none, some false]]⟩
    parse text = .ok pla ∧ lineKinds.inForce (lines text) = [2, 2] ∧
      Cube.OfWidth pla.inputs pla.cubes := by
  intro text pla
  have read : parse text = .ok pla := rfl
  have inForce : lineKinds.inForce (lines text) = [2, 2] := rfl
  have ofWidth := (parse_width_iff read).2.2.mpr (by rw [inForce]; decide)
  exact ⟨read, inForce, ofWidth⟩

/-- Another number that is declared after a row leaves its cube too narrow. -/
theorem parse_narrow_cube :
    let pla : Pla := ⟨2, [], [[some true]]⟩
    parse ".i 1\n1 1\n.i 2\n".toList = .ok pla ∧ ¬ Cube.OfWidth pla.inputs pla.cubes := by
  intro pla
  exact ⟨rfl, by decide⟩

end IsaLogic.Pla
