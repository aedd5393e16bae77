import IsaLogic.Text.Blank

/-!
# Counts that a text declares

In clause lists and in tables some lines declare a count and others are held against it. A
reader takes one line after another (`Reading`) and holds each against the count that was
declared last before it (`inForce`). That count need not be the last of the whole text, which
is the one that the reader reports (`declared`).

`Reading.follows` carries a property of what was read through a whole text, together with
the counts in force at the lines it was read from. It knows nothing of any particular format.
-/

namespace IsaLogic.Text

/-- How the lines of a format are told apart. -/
structure LineKinds where
  /-- The count that a line declares. -/
  declared? : List Char → Option Nat
  /-- Whether a line is held against the count and adds to what is read. -/
  isData : List Char → Bool
  /-- Whether a line ends the text. -/
  isEnd : List Char → Bool

namespace LineKinds

variable (kinds : LineKinds)

/-- The lines before the end. -/
def body (lines : List (List Char)) : List (List Char) :=
  lines.takeWhile fun line => !kinds.isEnd line

/-- The counts that a text declares, in order. -/
def declared (lines : List (List Char)) : List Nat :=
  (kinds.body lines).filterMap kinds.declared?

/-- The count in force at a line, if the line is held against it. -/
def heldAgainst (count : Option Nat) (line : List Char) : List Nat :=
  if kinds.isData line then count.toList else []

/-- The counts in force at the lines that are held against them, after a given count. -/
def inForceFrom : Option Nat → List (List Char) → List Nat
  | _, [] => []
  | count, line :: rest =>
    kinds.heldAgainst count line ++ inForceFrom ((kinds.declared? line).or count) rest

/-- The counts in force at the lines of a text that are held against them, in order. -/
def inForce (lines : List (List Char)) : List Nat := kinds.inForceFrom none (kinds.body lines)

theorem body_cons_of_isEnd {line : List Char} (isEnd : kinds.isEnd line = true)
    (rest : List (List Char)) : kinds.body (line :: rest) = [] := by
  rw [body, List.takeWhile_cons_of_neg (by simp [isEnd])]

theorem body_cons {line : List Char} (goesOn : kinds.isEnd line = false)
    (rest : List (List Char)) : kinds.body (line :: rest) = line :: kinds.body rest := by
  rw [body, List.takeWhile_cons_of_pos (by simp [goesOn]), body]

end LineKinds

section Reading

variable {State Failure : Type}
  {readLine : Nat → State → List Char → Except Failure (Option State)}

/-- Lines are read one after another, the first of which has the given number, until they are
used up or one of them ends the text. -/
inductive Reading (readLine : Nat → State → List Char → Except Failure (Option State)) :
    Nat → State → List (List Char) → State → Prop where
  | done {number state} : Reading readLine number state [] state
  | ended {number state line rest} (stops : readLine number state line = .ok none) :
    Reading readLine number state (line :: rest) state
  | next {number state line rest middle final}
    (step : readLine number state line = .ok (some middle))
    (later : Reading readLine (number + 1) middle rest final) :
    Reading readLine number state (line :: rest) final

/-- A loop over lines that takes one after another reads them. -/
theorem Reading.of_ok {readLines : Nat → State → List (List Char) → Except Failure State}
    (nil : ∀ number state, readLines number state [] = .ok state)
    (cons : ∀ number state line rest, readLines number state (line :: rest) =
      match readLine number state line with
      | .error failure => .error failure
      | .ok none => .ok state
      | .ok (some middle) => readLines (number + 1) middle rest)
    {number : Nat} {state final : State} {lines : List (List Char)}
    (read : readLines number state lines = .ok final) :
    Reading readLine number state lines final := by
  induction lines generalizing number state with
  | nil =>
    rw [nil] at read
    cases read
    exact .done
  | cons line rest ih =>
    rw [cons] at read
    split at read
    · cases read
    · rename_i stops
      cases read
      exact .ended stops
    · rename_i step
      exact .next step (ih read)

/-- A reader of lines follows the kinds of lines: it ends where they say, it takes over the counts
they declare, and what it has read keeps a property that depends on the counts in force. -/
structure Follows (kinds : LineKinds)
    (readLine : Nat → State → List Char → Except Failure (Option State))
    (count : State → Option Nat) (Holds : List Nat → State → Prop) : Prop where
  ended : ∀ {number state line}, readLine number state line = .ok none → kinds.isEnd line = true
  step : ∀ {number state line next}, readLine number state line = .ok (some next) →
    kinds.isEnd line = false ∧ count next = (kinds.declared? line).or (count state) ∧
      ∀ earlier, Holds earlier state → Holds (earlier ++ kinds.heldAgainst (count state) line) next

variable {kinds : LineKinds} {count : State → Option Nat} {Holds : List Nat → State → Prop}
  {number : Nat} {state final : State} {lines : List (List Char)} {earlier : List Nat}

/-- In the end the count is the one declared last, and the property holds for the counts in
force. -/
theorem Reading.follows (follows : Follows kinds readLine count Holds)
    (reading : Reading readLine number state lines final) (start : Holds earlier state) :
    count final = (kinds.declared lines).getLast?.or (count state) ∧
      Holds (earlier ++ kinds.inForceFrom (count state) (kinds.body lines)) final := by
  induction reading generalizing earlier with
  | done =>
    rw [LineKinds.body, List.takeWhile_nil, LineKinds.inForceFrom, List.append_nil]
    exact ⟨rfl, start⟩
  | ended stops =>
    have nothing := kinds.body_cons_of_isEnd (follows.ended stops)
    rw [LineKinds.declared, nothing, LineKinds.inForceFrom, List.append_nil]
    exact ⟨rfl, start⟩
  | @next number state line rest middle final step later inductionHypothesis =>
    obtain ⟨goesOn, takesOver, keeps⟩ := follows.step step
    obtain ⟨counts, holds⟩ := inductionHypothesis (keeps earlier start)
    rw [takesOver] at counts holds
    rw [LineKinds.declared, kinds.body_cons goesOn, LineKinds.inForceFrom,
      ← List.append_assoc]
    refine ⟨counts.trans ?_, holds⟩
    rw [LineKinds.declared]
    cases declares : kinds.declared? line with
    | none => rw [List.filterMap_cons_none declares, Option.none_or]
    | some n =>
      rw [List.filterMap_cons_some declares, List.getLast?_cons]
      cases (List.filterMap kinds.declared? (kinds.body rest)).getLast? <;> rfl

end Reading

end IsaLogic.Text
