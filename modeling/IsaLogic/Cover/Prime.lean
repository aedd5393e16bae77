import IsaLogic.Cover.Cube
import IsaLogic.Formula.Eval
import IsaLogic.Formula.NegationNormal

/-!
# Prime implicants

Exact two-level minimization of small functions. Implicants that differ in one
digit are merged until none can be; what is left unmerged on the way are the
primes. A cover takes every prime that alone covers some point, and then again
and again the prime that covers most of the points left, with the fewest
literals, the least one of several.
-/

namespace IsaLogic

/-- An implicant over binary digits: the digits in `mask` are not mentioned and
are zero in `value`. The first input is the most significant digit. -/
structure Implicant where
  mask : Nat
  value : Nat
deriving DecidableEq

namespace Implicant

instance : Ord Implicant where
  compare left right :=
    (compare left.mask right.mask).then (compare left.value right.value)

/-- The implicant of one point. -/
def point (m : Nat) : Implicant := { mask := 0, value := m }

/-- Whether a point, given by its digits, lies in the implicant. -/
def covers (p : Implicant) (m : Nat) : Bool :=
  (m ||| p.mask) == (p.value ||| p.mask)

/-- The implicant as a cube over `n` inputs. -/
def toCube (n : Nat) (p : Implicant) : Cube :=
  (List.range n).map fun i =>
    let digit := n - 1 - i
    if p.mask.testBit digit then none else some (p.value.testBit digit)

/-- The implicant of two that differ in one digit. -/
def merge? (a b : Implicant) : Option Implicant :=
  let difference := a.value ^^^ b.value
  if a.mask = b.mask ∧ difference ≠ 0 ∧ difference &&& (difference - 1) = 0 then
    some { mask := a.mask ||| difference, value := a.value &&& b.value }
  else none

/-- The number of inputs an implicant does not mention. -/
def freedom (n : Nat) (p : Implicant) : Nat :=
  (List.range n).countP p.mask.testBit

/-- Merge as often as `rounds` allows; an implicant that merges with none is prime. -/
def primesFrom : Nat → List Implicant → List Implicant
  | 0, current => current
  | rounds + 1, current =>
    let primes := current.filter fun a => current.all fun b => (merge? a b).isNone
    let merged := (Formula.pairs current).filterMap fun (a, b) => merge? a b
    primes ++ primesFrom rounds (ascending merged)

/-- The prime implicants of a set of points. Each round of merging uses up one
binary digit of the points. -/
def primes (points : List Nat) : List Implicant :=
  let digits := (points.map Nat.log2).foldl max 0 + 1
  ascending (primesFrom (digits + 1) (ascending (points.map point)))

/-- The primes that alone cover some point, in the order of the points. -/
def essentials (primes : List Implicant) (points : List Nat) : List Implicant :=
  (points.filterMap fun m =>
    match primes.filter (·.covers m) with
    | [only] => some only
    | _ => none).eraseDups

/-- How many of some points an implicant covers. -/
def gain (points : List Nat) (p : Implicant) : Nat := points.countP p.covers

/-- Whether one implicant is a better pick: more points covered, or as many with
fewer literals. -/
def better (n : Nat) (points : List Nat) (p q : Implicant) : Bool :=
  q.gain points < p.gain points ||
    (p.gain points == q.gain points && q.freedom n < p.freedom n)

/-- The points an implicant does not cover. -/
def uncovered (p : Implicant) (points : List Nat) : List Nat :=
  points.filter (!p.covers ·)

theorem length_uncovered_lt {p : Implicant} {points : List Nat} (gains : p.gain points ≠ 0) :
    (p.uncovered points).length < points.length := by
  have exists_covered : ∃ m ∈ points, p.covers m = true := by
    simpa [gain, List.countP_eq_zero] using gains
  obtain ⟨m, member, covered⟩ := exists_covered
  rw [uncovered, List.length_filter_lt_length_iff_exists]
  exact ⟨m, member, by simp [covered]⟩

/-- Pick primes until no point is left, or none covers any more. -/
def pickGreedily (n : Nat) (primes chosen : List Implicant) (points : List Nat) :
    List Implicant :=
  if points.isEmpty then chosen
  else
    match firstBest? (better n points) (primes.filter (!chosen.contains ·)) with
    | none => chosen
    | some pick =>
      if gains : pick.gain points = 0 then chosen
      else
        have := length_uncovered_lt gains
        pickGreedily n primes (chosen ++ [pick]) (pick.uncovered points)
termination_by points.length

/-- A cover of some points by primes, ascending. -/
def selectCover (n : Nat) (primes : List Implicant) (points : List Nat) : List Implicant :=
  let chosen := essentials primes points
  let left := (ascending points).filter fun m => !chosen.any (·.covers m)
  (pickGreedily n primes chosen left).mergeSort fun a b => (compare a b).isLE

end Implicant

/-- A cover of the points `points`, numbers of `n` binary digits, by prime cubes. -/
def primeCover (n : Nat) (points : List Nat) : List Cube :=
  (Implicant.selectCover n (Implicant.primes points) points).map (Implicant.toCube n)

/-- The truth table of a formula: its terms, and the assignments, numbered from
zero, under which it holds and fails. -/
structure TruthTable where
  terms : List Term
  on : List Nat
  off : List Nat

namespace TruthTable

/-- The truth table of a formula. -/
def ofFormula (f : Formula) : TruthTable :=
  let terms := f.terms
  let rows := ((Assignment.allOf terms).map fun assignment => f.holds assignment.value).zipIdx
  { terms
    on := (rows.filter (·.1)).map (·.2)
    off := (rows.filter (!·.1)).map (·.2) }

/-- The points that a two-level form has to cover. -/
def points (table : TruthTable) : TwoLevel → List Nat
  | .disjunctive => table.on
  | .conjunctive => table.off

/-- The points that a two-level form has to cover, each as a cube. -/
def pointCubes (table : TruthTable) (form : TwoLevel) : List Cube :=
  (table.points form).map fun m => (Implicant.point m).toCube table.terms.length

end TruthTable

namespace Formula

/-- A two-level form of a formula by exact minimization over its truth table. -/
def minimizeExact (form : TwoLevel) (f : Formula) : Formula :=
  let table := TruthTable.ofFormula f
  coverFormula table.terms form (primeCover table.terms.length (table.points form))

end Formula

end IsaLogic
