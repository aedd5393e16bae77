import IsaLogic.Cnf.Search

/-!
# Minimal unsatisfiable subsets

A subset of clauses is minimal if it is unsatisfiable and any smaller subset is
not. Few clauses get all such subsets, by trying subsets in order of their size;
many clauses get one, by deletion. The question whether a subset is
unsatisfiable may be any computation, so that the search also serves questions
that can fail or that remember their answers.
-/

namespace IsaLogic.Core

/-- The number of ones among the first `count` binary digits. -/
def ones (count mask : Nat) : Nat := (List.range count).countP mask.testBit

/-- The places of the ones among the first `count` binary digits, ascending. -/
def members (count mask : Nat) : List Nat := (List.range count).filter mask.testBit

/-- The nonempty subsets of `count` places, as binary numbers, the smaller
subsets first. -/
def subsets (count : Nat) : List Nat :=
  ((List.range (Nat.pow 2 count)).drop 1).mergeSort fun a b => ones count a ≤ ones count b

/-- Try subsets in order, passing over those that contain one found before. -/
def enumerateFrom {m : Type → Type} [Monad m] (count : Nat) (unsat : List Nat → m Bool)
    (found : List Nat) : List Nat → m (List Nat)
  | [] => return found
  | mask :: rest => do
    if found.any fun f => mask &&& f == f then enumerateFrom count unsat found rest
    else if ← unsat (members count mask) then enumerateFrom count unsat (found ++ [mask]) rest
    else enumerateFrom count unsat found rest

/-- All minimal unsatisfiable subsets of `count` clauses, smallest first. -/
def enumerate {m : Type → Type} [Monad m] (count : Nat) (unsat : List Nat → m Bool) :
    m (List (List Nat)) := do
  return (← enumerateFrom count unsat [] (subsets count)).map (members count)

/-- Delete each of the places `left` whose loss keeps the rest, together with the
places kept so far, unsatisfiable. -/
def shrinkFrom {m : Type → Type} [Monad m] (unsat : List Nat → m Bool) (kept : List Nat) :
    List Nat → m (List Nat)
  | [] => return kept
  | place :: left => do
    if ← unsat (kept ++ left) then shrinkFrom unsat kept left
    else shrinkFrom unsat (kept ++ [place]) left

/-- Shrink an ascending unsatisfiable set of places to a minimal one. -/
def shrink {m : Type → Type} [Monad m] (unsat : List Nat → m Bool) (places : List Nat) :
    m (List Nat) :=
  shrinkFrom unsat [] places

/-- The clauses at some places. -/
def clausesAt (clauses : List (List Int)) (places : List Nat) : List (List Int) :=
  places.filterMap fun place => clauses[place]?

/-- Whether the clauses at some places are unsatisfiable. -/
def isUnsat (cnf : Cnf) (places : List Nat) : Bool :=
  (Cnf.findModel cnf.numVars (clausesAt cnf.clauses places)).isNone

/-- The most clauses for which all subsets are tried, whatever is asked for. -/
def maxEnumerated : Nat := 31

/-- Minimal unsatisfiable subsets of a clause list, as ascending places: all of
them for up to `maxExhaustive` clauses, else one. A satisfiable list has none. -/
def extract (maxExhaustive : Nat) (cnf : Cnf) : List (List Nat) :=
  let count := cnf.clauses.length
  let all := List.range count
  if !isUnsat cnf all then []
  else if count ≤ min maxExhaustive maxEnumerated then
    Id.run (enumerate count fun places => pure (isUnsat cnf places))
  else [Id.run (shrink (fun places => pure (isUnsat cnf places)) all)]

end IsaLogic.Core
