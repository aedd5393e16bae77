import IsaLogic.Formula.Shape

/-!
# Cubes and covers

A cube over some inputs says for each input whether it is true, false or not
mentioned; it stands for all points that agree with it. A cover is a list of
cubes and stands for their union.
-/

namespace IsaLogic

/-- A product of literals over a list of inputs. -/
abbrev Cube := List (Option Bool)

namespace Cube

/-- Whether a point lies in a cube. The shorter of the two decides how many
inputs are looked at. -/
def covers (cube : Cube) (point : List Bool) : Bool :=
  (cube.zip point).all fun (entry, value) => entry.all (· == value)

/-- The number of inputs a cube mentions. -/
def literals (cube : Cube) : Nat := cube.countP Option.isSome

/-- Whether every point of one cube lies in the other. -/
def within (inner outer : Cube) : Bool :=
  (inner.zip outer).all fun (i, o) => o.isNone || i == o

/-- The character of an entry. -/
def entryChar : Option Bool → Char
  | some true => '1'
  | some false => '0'
  | none => '-'

/-- A cube as a row of characters. -/
def text (cube : Cube) : String := String.ofList (cube.map entryChar)

/-- The literals of a cube over terms, all of them opposite if `complement`. -/
def toLiterals (terms : List Term) (complement : Bool) (cube : Cube) : List Literal :=
  (cube.zip terms).filterMap fun (entry, term) =>
    entry.map fun value => { term, positive := value != complement }

/-- The cube over terms that a group of literals describes. -/
def ofLiterals (terms : List Term) (group : List Literal) : Cube :=
  terms.map fun term =>
    (group.reverse.find? fun literal => literal.term == term).map Literal.positive

end Cube

/-- The two-level formula of a cover. In disjunctive form the cubes are the
products; in conjunctive form they cover the points where the formula fails, and
each becomes a clause of opposite literals. -/
def coverFormula (terms : List Term) (form : TwoLevel) (cubes : List Cube) : Formula :=
  match form with
  | .disjunctive => Formula.ofCubes (cubes.map (Cube.toLiterals terms false))
  | .conjunctive => Formula.ofClauses (cubes.map (Cube.toLiterals terms true))

/-- The first of the elements that no other one beats. -/
def firstBest? {α : Type} (better : α → α → Bool) : List α → Option α
  | [] => none
  | x :: rest =>
    match firstBest? better rest with
    | none => some x
    | some y => if better y x then some y else some x

theorem mem_of_firstBest? {α : Type} {better : α → α → Bool} {list : List α} {best : α}
    (found : firstBest? better list = some best) : best ∈ list := by
  induction list generalizing best with
  | nil => simp [firstBest?] at found
  | cons x rest ih =>
    simp only [firstBest?] at found
    split at found
    · simp only [Option.some.injEq] at found
      simp [found]
    · rename_i y restBest
      split at found
      · simp only [Option.some.injEq] at found
        exact List.mem_cons_of_mem x (found ▸ ih restBest)
      · simp only [Option.some.injEq] at found
        simp [found]

end IsaLogic
