import IsaLogic.Clause.Compile
import IsaLogic.Database.Basic

/-!
# Expansion

A formula by itself treats its terms as independent. Expansion conjoins what a
database says of them:

- an exact version implies what it requires, and so does a parameter;
- a range of versions amounts to one of the versions it admits, and a version
  that the database does not list is never implemented;
- no two versions of an extension are implemented together;
- comparisons of one parameter exclude or imply each other where their operands
  decide it, and the register width is one of the two.

`consequence` is what one term contributes, with the terms to look at next.
`explore` visits every term that can be reached, each once, in order of
discovery. It ends because all of them lie in the finite `vocabulary`.
-/

namespace IsaLogic

/-- What a term contributes to an expansion. -/
structure Consequence where
  /-- The terms to visit next. -/
  next : List Term := []
  /-- What is known of the term. -/
  derived : List Formula := []

namespace Database

/-- The contribution of a term that implies a clause, if there is one. -/
def requirementOf (term : Term) : Option Clause → Except ConditionError Consequence
  | none => .ok {}
  | some clause => do
    let requires ← clause.compile
    return { next := requires.terms, derived := [.implies (.atom term) requires] }

/-- The exact versions a range admits. -/
def admitted (db : Database) (range : ExtensionTerm) : List Term :=
  (range.satisfying (db.versions range.name)).map fun version =>
    .extension (ExtensionTerm.exact range.name version)

/-- What a term contributes. -/
def consequence (db : Database) (term : Term) : Except ConditionError Consequence :=
  match term with
  | .extension ext =>
    if ext.isExact then
      if (db.versions ext.name).contains ext.version then
        requirementOf term (db.requirement? ext.name ext.version)
      else .ok { derived := [.neg (.atom term)] }
    else
      match db.admitted ext with
      | [] => .ok { derived := [.neg (.atom term)] }
      | exacts =>
        .ok {
          next := exacts
          derived := [Formula.iff (.atom term) (Formula.anyOf (exacts.map .atom))] }
  | .parameter param => requirementOf term (db.parameterRequirement? param.name)
  | .xlen _ | .free _ => .ok {}

/-- The terms of a clause; none if it has no formula. -/
def clauseTerms (clause : Clause) : List Term :=
  match clause.compile with
  | .ok f => f.terms
  | .error _ => []

/-- Every term a database mentions: its exact versions, and the terms of its
requirements. -/
def mentioned (db : Database) : List Term :=
  (db.extensions.flatMap fun extension =>
    extension.2.flatMap fun release =>
      .extension (ExtensionTerm.exact extension.1 release.1) ::
        (release.2.map clauseTerms).getD []) ++
  db.parameters.flatMap fun parameter => clauseTerms parameter.2

/-- What a walk over terms has found. -/
structure Exploration where
  /-- The visited terms, in order. -/
  visited : List Term := []
  /-- What they contribute, in order. -/
  derived : List Formula := []

/-- Visiting a new term of the vocabulary leaves fewer to visit. -/
theorem unvisited_lt {vocabulary visited : List Term} {term : Term}
    (inside : term ∈ vocabulary) (new : term ∉ visited) :
    (vocabulary.filter fun other => other ∉ visited ++ [term]).length <
      (vocabulary.filter fun other => other ∉ visited).length := by
  have split : (vocabulary.filter fun other => other ∉ visited ++ [term]) =
      (vocabulary.filter fun other => other ∉ visited).filter fun other => other ≠ term := by
    rw [List.filter_filter]
    congr 1
    funext other
    simp [Bool.and_comm]
  rw [split, List.length_filter_lt_length_iff_exists]
  exact ⟨term, by simp [inside, new], by simp⟩

/-- Visit the terms of a queue and all that follow from them, inside a finite
vocabulary. -/
def explore (db : Database) (vocabulary : List Term) (found : Exploration) :
    List Term → Except ConditionError Exploration
  | [] => .ok found
  | term :: queue =>
    if term ∈ vocabulary ∧ term ∉ found.visited then do
      let consequence ← db.consequence term
      explore db vocabulary
        { visited := found.visited ++ [term]
          derived := found.derived ++ consequence.derived }
        (queue ++ consequence.next)
    else explore db vocabulary found queue
termination_by queue => ((vocabulary.filter fun term => term ∉ found.visited).length, queue.length)
decreasing_by
  · rename_i new
    exact Prod.Lex.left _ _ (unvisited_lt new.1 new.2)
  · exact Prod.Lex.right _ (by simp)

/-- No two of the visited versions of an extension are implemented together. The
versions a database does not list need no such rule. -/
def exclusions (db : Database) (visited : List Term) : List Formula :=
  let seen := (visited.filterMap Term.extension?).filter fun ext =>
    ext.isExact && (db.versions ext.name).contains ext.version
  (ascending (seen.map ExtensionTerm.name)).filterMap fun name =>
    let versions := ascending ((seen.filter fun ext => ext.name == name).map ExtensionTerm.version)
    if versions.length < 2 then none
    else
      let each := versions.map fun version => Formula.atom (.extension (.exact name version))
      some (Formula.anyOf [Formula.nor each, Formula.oneOf each])

/-- What one comparison says of another, as a formula. -/
def relation? (term other : ParamTerm) : Option Formula :=
  (term.relation? other).map fun agrees =>
    let consequent := Formula.atom (.parameter other)
    .implies (.atom (.parameter term)) (if agrees then consequent else .neg consequent)

/-- What the visited comparisons say of each other. -/
def relations (visited : List Term) : List Formula :=
  let params := visited.filterMap Term.parameter?
  params.flatMap fun term => params.filterMap fun other => relation? term other

/-- The register width is one of the two, if a formula asks for it. -/
def widths (visited : List Term) : List Formula :=
  if visited.any fun term => term == .xlen .rv32 || term == .xlen .rv64 then
    [Formula.oneOf (Xlen.both.map fun width => .atom (.xlen width))]
  else []

/-- Everything a database says about the terms of a formula. -/
def derive (db : Database) (root : Formula) : Except ConditionError (List Formula) := do
  let found ← db.explore (root.terms ++ db.mentioned) {} root.terms
  return found.derived ++ db.exclusions found.visited ++ relations found.visited ++
    widths found.visited

/-- A formula with everything a database says about its terms. -/
def expand (db : Database) (root : Formula) : Except ConditionError Formula := do
  return Formula.allOf (root :: (← db.derive root))

end Database

end IsaLogic
