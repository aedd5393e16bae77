import IsaLogic.Cover.Pla
import IsaLogic.Proofs.Cover.Cube
import IsaLogic.Proofs.Term.Sanitized
import IsaLogic.Proofs.Text.Reading

/-!
# Tables are read back from their text

The text of a table is a list of directives, one row for each cube, and an end
(`toList_text`). A directive is read as its name and arguments, whatever was read before
(`readLine_directiveLine`), and a row adds its cube (`readLine_rowLine`). Labels are single words
without the sign that starts a comment (`IsLabel`), as identifiers of terms are
(`isLabel_identifier`).

A table without inputs is left out: its rows would be blank before the output, and one word
is no row.
-/

namespace IsaLogic

namespace Pla

open Text

/-- A word that is read as one argument of a directive. -/
structure IsLabel (word : List Char) : Prop extends IsWord word where
  uncommented : '#' ∉ word

/-- What a table has to keep to be read back. Counts are 64-bit words. -/
structure Fits (pla : Pla) : Prop where
  some : 0 < pla.inputs
  inputs : pla.inputs ≤ maxCount
  widths : Cube.OfWidth pla.inputs pla.cubes
  labels : ∀ label ∈ pla.labels, IsLabel label.toList

theorem isLabel_iff {word : List Char} :
    IsLabel word ↔ word ≠ [] ∧ word.all fun c => !isBlank c && c != '#' := by
  simp only [List.all_eq_true, Bool.and_eq_true, Bool.not_eq_true', bne_iff_ne]
  constructor
  · rintro ⟨isWord, uncommented⟩
    exact ⟨isWord.some, fun c member =>
      ⟨isWord.solid c member, fun isSign => uncommented (isSign ▸ member)⟩⟩
  · rintro ⟨some, each⟩
    exact ⟨⟨some, fun c member => (each c member).1⟩, fun member => (each '#' member).2 rfl⟩

instance (word : List Char) : Decidable (IsLabel word) := decidable_of_iff _ isLabel_iff.symm

theorem isLabel_toString (n : Nat) : IsLabel (toString n).toList where
  toIsWord := isWord_toString_nat n
  uncommented member := absurd (isDigit_of_mem_toString member) (by decide)

/-- Identifiers of terms have letters, digits and low lines only, at least one. -/
theorem isLabel_identifier (term : Term) : IsLabel term.identifier.toList := by
  obtain ⟨some, plain⟩ := term.isPlain_identifier
  refine isLabel_iff.mpr ⟨some, List.all_eq_true.mpr fun c member => ?_⟩
  rcases Bool.or_eq_true_iff.mp (List.all_eq_true.mp plain c member) with isAlphanum | isLow
  · rw [isBlank_of_isAlphanum isAlphanum, Bool.not_false, Bool.true_and, bne_iff_ne]
    rintro rfl
    exact absurd isAlphanum (by decide)
  · rw [beq_iff_eq.mp isLow]
    decide

section Lines

/-- A directive with its arguments. -/
def directiveLine (name : String) (arguments : List (List Char)) : List Char :=
  [' '].intercalate (('.' :: name.toList) :: arguments)

/-- The directives of a table that is written. -/
def names : List String := ["i", "o", "ilb", "ob", "type", "p", "e"]

theorem isLabel_name : ∀ name ∈ names, IsLabel name.toList := by decide

/-- The row of a cube for which the output is one. -/
def rowLine (cube : Cube) : List Char := [' '].intercalate [cube.text.toList, ['1']]

/-- The lines of a table before its rows. -/
def headLines (pla : Pla) : List (List Char) :=
  [directiveLine "i" [(toString pla.inputs).toList], directiveLine "o" [['1']]] ++
    (if pla.labels.isEmpty then [] else [directiveLine "ilb" (pla.labels.map String.toList)]) ++
    [directiveLine "ob" [['f']], directiveLine "type" [['f']],
      directiveLine "p" [(toString pla.cubes.length).toList]]

theorem toList_text (pla : Pla) :
    pla.text.toList = (headLines pla ++ (pla.cubes.map rowLine ++ [directiveLine "e" []])).flatMap
      (· ++ ['\n']) := by
  unfold text headLines
  cases pla.labels with
  | nil => simp [directiveLine, rowLine, List.flatMap_map, List.intercalate]
  | cons label labels => simp [directiveLine, rowLine, List.flatMap_map, List.intercalate]

variable {list : List (List Char)}

/-- Labels with spaces between them are a line. -/
theorem isLine_labels (some : list ≠ []) (areLabels : ∀ word ∈ list, IsLabel word) :
    IsLine ([' '].intercalate list) :=
  isLine_joined some fun word member => (areLabels word member).toIsWord

/-- Labels with spaces between them have no comment. -/
theorem uncommented_joined (areLabels : ∀ word ∈ list, IsLabel word) :
    ([' '].intercalate list).takeWhile (· != '#') = [' '].intercalate list := by
  have each : ∀ c ∈ [' '].intercalate list, (c != '#') = true := by
    intro c member
    refine bne_iff_ne.mpr ?_
    rintro rfl
    cases list with
    | nil => cases member
    | cons first others =>
      rw [intercalate_cons, List.mem_append, List.mem_flatMap] at member
      rcases member with inFirst | ⟨word, isOther, inside⟩
      · exact (areLabels first (List.mem_cons_self ..)).uncommented inFirst
      · refine (areLabels word (List.mem_cons_of_mem first isOther)).uncommented ?_
        simpa using inside
  have parted := (@takeWhile_dropWhile_append _ _ _ [] each nofun).1
  rwa [List.append_nil] at parted

/-- The cubes of a table are labels of their rows. -/
theorem isLabel_cube {cube : Cube} (some : cube ≠ []) : IsLabel cube.text.toList := by
  rw [Cube.text, String.toList_ofList]
  refine isLabel_iff.mpr ⟨by simpa using some, List.all_eq_true.mpr fun c member => ?_⟩
  obtain ⟨entry, _, rfl⟩ := List.mem_map.mp member
  rcases entry with _ | _ | _ <;> decide

theorem isLabel_point {name : List Char} (isName : IsLabel name) : IsLabel ('.' :: name) where
  some := List.cons_ne_nil _ _
  solid := List.forall_mem_cons.mpr ⟨by decide, isName.solid⟩
  uncommented := by simpa using isName.uncommented

theorem isLine_directiveLine {name : String} {arguments : List (List Char)} (isName : name ∈ names)
    (areLabels : ∀ argument ∈ arguments, IsLabel argument) :
    IsLine (directiveLine name arguments) :=
  isLine_labels (List.cons_ne_nil _ _)
    (List.forall_mem_cons.mpr ⟨isLabel_point (isLabel_name name isName), areLabels⟩)

theorem isLine_rowLine {cube : Cube} (notEmpty : cube ≠ []) : IsLine (rowLine cube) :=
  isLine_labels (List.cons_ne_nil _ _) (List.forall_mem_cons.mpr
    ⟨isLabel_cube notEmpty, List.forall_mem_singleton.mpr (isLabel_toString 1)⟩)

end Lines

section Reading

variable {line : Nat} {state : Partial}

/-- A directive is read as its name and its arguments. -/
theorem readLine_directiveLine {name : String} {arguments : List (List Char)}
    (isName : IsLabel name.toList) (areLabels : ∀ argument ∈ arguments, IsLabel argument) :
    readLine line state (directiveLine name arguments) =
      readDirective line state (name.toList :: arguments) := by
  have fields : words ([' '].intercalate (name.toList :: arguments)) = name.toList :: arguments :=
    words_joined (List.cons_ne_nil _ _)
      (List.forall_mem_cons.mpr
        ⟨isName.toIsWord, fun word member => (areLabels word member).toIsWord⟩)
  have areAll : ∀ word ∈ ('.' :: name.toList) :: arguments, IsLabel word :=
    List.forall_mem_cons.mpr ⟨isLabel_point isName, areLabels⟩
  have pointed : directiveLine name arguments =
      '.' :: [' '].intercalate (name.toList :: arguments) := by
    rw [directiveLine, intercalate_cons, intercalate_cons]
    rfl
  have trimmed : trim (directiveLine name arguments) = directiveLine name arguments :=
    trim_joined (List.cons_ne_nil _ _) fun word member => (areAll word member).toIsWord
  have uncommented := uncommented_joined areAll
  rw [← directiveLine] at uncommented
  rw [readLine, uncommented, trimmed, pointed]
  change readDirective line state (words ([' '].intercalate (name.toList :: arguments))) = _
  rw [fields]

theorem readCube_map_entryChar (cube : Cube) :
    readCube line (cube.map Cube.entryChar) = .ok cube := by
  induction cube with
  | nil => rfl
  | cons entry cube ih =>
    have cell : cell? (Cube.entryChar entry) = some entry := by
      rcases entry with _ | _ | _ <;> rfl
    rw [List.map_cons, readCube, cell]
    dsimp only
    rw [ih]
    rfl

/-- A row starts with an entry of its cube, and no entry looks like a directive. -/
theorem exists_head_rowLine {cube : Cube} (notEmpty : cube ≠ []) :
    ∃ c rest, rowLine cube = c :: rest ∧ c ≠ '.' := by
  obtain ⟨entry, others, rfl⟩ := List.exists_cons_of_ne_nil notEmpty
  refine ⟨Cube.entryChar entry, others.map Cube.entryChar ++ [' ', '1'], ?_, ?_⟩
  · simp [rowLine, Cube.text, intercalate_cons]
  · rcases entry with _ | _ | _ <;> decide

/-- A row adds its cube. -/
theorem readLine_rowLine {width : Nat} {cube : Cube} (declared : state.inputs = some width)
    (wide : 0 < width) (isWidth : cube.length = width) :
    readLine line state (rowLine cube) =
      .ok (some { state with cubes := state.cubes ++ [cube] }) := by
  have notEmpty : cube ≠ [] := by
    rintro rfl
    rw [← isWidth] at wide
    exact Nat.lt_irrefl 0 wide
  have areLabels : ∀ word ∈ [cube.text.toList, ['1']], IsLabel word :=
    List.forall_mem_cons.mpr ⟨isLabel_cube notEmpty,
      List.forall_mem_singleton.mpr (isLabel_toString 1)⟩
  have areWords : ∀ word ∈ [cube.text.toList, ['1']], IsWord word :=
    fun word member => (areLabels word member).toIsWord
  have fields : words (rowLine cube) = [cube.text.toList, ['1']] :=
    words_joined (List.cons_ne_nil _ _) areWords
  have trimmed : trim (rowLine cube) = rowLine cube := trim_joined (List.cons_ne_nil _ _) areWords
  have uncommented := uncommented_joined areLabels
  rw [← rowLine] at uncommented
  have written : cube.text.toList = cube.map Cube.entryChar := String.toList_ofList
  have row : readRow line state (rowLine cube) =
      .ok { state with cubes := state.cubes ++ [cube] } := by
    rw [readRow, declared, fields, written]
    dsimp only
    rw [if_neg (by simpa using isWidth), if_pos (.inl rfl), readCube_map_entryChar]
    rfl
  rw [readLine, uncommented, trimmed]
  obtain ⟨c, rest, starts, notPoint⟩ := exists_head_rowLine notEmpty
  rw [starts] at row ⊢
  split
  · contradiction
  · exact absurd (List.cons.inj ‹_›).1 notPoint
  · rw [row]
    rfl

/-- A line that is read takes the reader to the next. -/
theorem readLines_cons {raw : List Char} {next : Partial}
    (read : readLine line state raw = .ok (some next)) (rest : List (List Char)) :
    readLines line state (raw :: rest) = readLines (line + 1) next rest := by
  rw [readLines, read]

/-- Rows add their cubes in order, and the end leaves them as they are. -/
theorem readLines_rowLines {width : Nat} {cubes : List Cube} (wide : 0 < width)
    (widths : Cube.OfWidth width cubes) (declared : state.inputs = some width) :
    readLines line state (cubes.map rowLine ++ [directiveLine "e" []]) =
      .ok { state with cubes := state.cubes ++ cubes } := by
  induction cubes generalizing line state with
  | nil =>
    rw [List.append_nil]
    rfl
  | cons cube cubes ih =>
    obtain ⟨first, later⟩ := List.forall_mem_cons.mp widths
    rw [List.map_cons, List.cons_append, readLines_cons (readLine_rowLine declared wide first)]
    refine (@ih (line + 1) { state with cubes := state.cubes ++ [cube] } later declared).trans ?_
    rw [List.append_assoc, List.singleton_append]

/-- A directive that is neither for the inputs nor for the labels nor the end is skipped. -/
theorem readLine_skipped {name : String} {argument : List Char} (isName : name ∈ names)
    (isLabel : IsLabel argument)
    (other : name.toList ∉ ["i".toList, "ilb".toList, "e".toList, "end".toList]) :
    readLine line state (directiveLine name [argument]) = .ok (some state) := by
  rw [readLine_directiveLine (isLabel_name name isName) (List.forall_mem_singleton.mpr isLabel)]
  simp only [List.mem_cons, List.not_mem_nil, not_or, or_false] at other
  obtain ⟨notInputs, notLabels, notEnd⟩ := other
  unfold readDirective
  dsimp only
  rw [if_neg notInputs, if_neg notLabels, if_neg (not_or.mpr notEnd)]

theorem readLine_inputs {n : Nat} (few : n ≤ maxCount) :
    readLine line state (directiveLine "i" [(toString n).toList]) =
      .ok (some { state with inputs := some n }) := by
  rw [readLine_directiveLine (isLabel_name "i" (by decide))
    (List.forall_mem_singleton.mpr (isLabel_toString n))]
  unfold readDirective
  dsimp only
  rw [if_pos rfl, readNat_toString few]

theorem readLine_labels {labels : List String}
    (areLabels : ∀ label ∈ labels, IsLabel label.toList) :
    readLine line state (directiveLine "ilb" (labels.map String.toList)) =
      .ok (some { state with labels }) := by
  have unchanged : (labels.map String.toList).map String.ofList = labels := by
    simp [Function.comp_def]
  rw [readLine_directiveLine (isLabel_name "ilb" (by decide)) (List.forall_mem_map.mpr areLabels)]
  unfold readDirective
  dsimp only
  rw [if_neg (by decide), if_pos rfl, unchanged]

end Reading

section Parsing

variable {pla : Pla} (fits : pla.Fits)

include fits

/-- The lines before the rows declare the number of inputs and the labels. -/
theorem readLines_headLines (line : Nat) (rest : List (List Char)) :
    ∃ next, readLines line {} (headLines pla ++ rest) =
      readLines next ⟨some pla.inputs, pla.labels, []⟩ rest := by
  have one : IsLabel ['1'] := isLabel_toString 1
  have letter : IsLabel ['f'] := by decide
  have count : IsLabel (toString pla.cubes.length).toList := isLabel_toString pla.cubes.length
  -- the directives behind the labels say nothing that is kept
  have last : ∀ line state, readLines line state
      ([directiveLine "ob" [['f']], directiveLine "type" [['f']],
        directiveLine "p" [(toString pla.cubes.length).toList]] ++ rest) =
      readLines (line + 1 + 1 + 1) state rest := by
    intro line state
    simp only [List.cons_append, List.nil_append]
    rw [readLines_cons (readLine_skipped (by decide) letter (by decide)),
      readLines_cons (readLine_skipped (by decide) letter (by decide)),
      readLines_cons (readLine_skipped (by decide) count (by decide))]
  have first := readLines_cons (@readLine_inputs line {} _ fits.inputs)
  have second : ∀ line state, readLine line state (directiveLine "o" [['1']]) = .ok (some state) :=
    fun line state => readLine_skipped (by decide) one (by decide)
  rw [headLines, List.append_assoc, List.append_assoc, List.cons_append, List.cons_append,
    List.nil_append, first, readLines_cons (second _ _)]
  cases noLabels : pla.labels.isEmpty with
  | true =>
    rw [List.isEmpty_iff.mp noLabels]
    exact ⟨_, last _ _⟩
  | false => exact ⟨_, (readLines_cons (readLine_labels fits.labels) _).trans (last _ _)⟩

theorem isLine_of_mem :
    ∀ line ∈ headLines pla ++ (pla.cubes.map rowLine ++ [directiveLine "e" []]), IsLine line := by
  have directive : ∀ name ∈ names, ∀ argument, IsLabel argument →
      IsLine (directiveLine name [argument]) := fun name member argument isLabel =>
    isLine_directiveLine member (List.forall_mem_singleton.mpr isLabel)
  have letter : IsLabel ['f'] := by decide
  have labels : ∀ line ∈ if pla.labels.isEmpty then []
      else [directiveLine "ilb" (pla.labels.map String.toList)], IsLine line := by
    split
    · exact nofun
    · exact List.forall_mem_singleton.mpr
        (isLine_directiveLine (by decide) (List.forall_mem_map.mpr fits.labels))
  have rows : ∀ line ∈ pla.cubes.map rowLine, IsLine line := by
    refine List.forall_mem_map.mpr fun cube member => isLine_rowLine ?_
    rintro rfl
    exact absurd fits.some (Nat.not_lt.mpr (Nat.le_of_eq (fits.widths [] member).symm))
  simp only [headLines, List.forall_mem_append, List.forall_mem_cons]
  refine ⟨⟨⟨⟨?inputs, ?output, nofun⟩, labels⟩, ?name, ?kind, ?count, nofun⟩, rows, ?last, nofun⟩
  case inputs => exact directive "i" (by decide) _ (isLabel_toString pla.inputs)
  case output => exact directive "o" (by decide) _ (isLabel_toString 1)
  case name => exact directive "ob" (by decide) _ letter
  case kind => exact directive "type" (by decide) _ letter
  case count => exact directive "p" (by decide) _ (isLabel_toString pla.cubes.length)
  case last => exact isLine_directiveLine (by decide) nofun

/-- A table is read back from its text. -/
theorem parse_text : parse pla.text.toList = .ok pla := by
  obtain ⟨next, head⟩ :=
    readLines_headLines fits 1 (pla.cubes.map rowLine ++ [directiveLine "e" []])
  have read : readLines 1 {} (Text.lines pla.text.toList) =
      .ok ⟨some pla.inputs, pla.labels, pla.cubes⟩ := by
    rw [toList_text, lines_ended (isLine_of_mem fits), head,
      readLines_rowLines fits.some fits.widths rfl, List.nil_append]
  rw [parse, read]
  rfl

end Parsing

/-- A table is read back from its text, with the same number of inputs and the same labels and cubes
in the same order, if it has an input, its cubes are as wide as that number says, and its labels
are words without comments. In particular a table over terms that are labelled by their
identifiers is read back. -/
theorem table_lossless :
    (∀ pla : Pla, pla.Fits → parse pla.text.toList = .ok pla) ∧
      ∀ (terms : List Term) (cubes : List Cube), terms ≠ [] → terms.length ≤ maxCount →
        Cube.OfWidth terms.length cubes →
        parse (ofLabels (terms.map Term.identifier) cubes).text.toList =
          .ok (ofLabels (terms.map Term.identifier) cubes) := by
  refine ⟨fun pla => parse_text, fun terms cubes some few widths => parse_text ?_⟩
  have inputs : (ofLabels (terms.map Term.identifier) cubes).inputs = terms.length :=
    List.length_map Term.identifier
  exact {
    some := inputs ▸ List.length_pos_of_ne_nil some
    inputs := inputs ▸ few
    widths := inputs ▸ widths
    labels := List.forall_mem_map.mpr fun term _ => isLabel_identifier term }

/-- Labels that look like directives and are more than the inputs, and a term that labels two
inputs. -/
theorem table_lossless_labels :
    let pla : Pla := ⟨2, [".e", "é-1", "i"], [[some true, none], [none, none], [some true, none]]⟩
    let terms : List Term := [.free 1, .xlen .rv64, .free 1]
    let cubes : List Cube := [[none, some false, some true]]
    parse pla.text.toList = .ok pla ∧
      parse (ofLabels (terms.map Term.identifier) cubes).text.toList =
        .ok (ofLabels (terms.map Term.identifier) cubes) := by
  intro pla terms cubes
  have fits : pla.Fits := {
    some := by decide
    inputs := by decide
    widths := by decide
    labels := by decide }
  exact ⟨table_lossless.1 pla fits,
    table_lossless.2 terms cubes (List.cons_ne_nil _ _) (by decide) (by decide)⟩

end Pla

end IsaLogic
