/-!
# Three-valued truth

The outcome of asking incomplete knowledge. `maybe` means that the answer is not
decided by what is known, so every connective answers `yes` or `no` as soon as
the known operands force it.
-/

namespace IsaLogic

/-- Yes, no, or not decided. -/
inductive Verdict where
  | yes
  | no
  | maybe
deriving DecidableEq, Repr

namespace Verdict

/-- A known truth value. -/
def ofBool : Bool → Verdict
  | true => yes
  | false => no

/-- Negation leaves the undecided undecided. -/
def negate : Verdict → Verdict
  | yes => no
  | no => yes
  | maybe => maybe

/-- `yes` if all are, `no` if any is. -/
def all (results : List Verdict) : Verdict :=
  if results.contains no then no
  else if results.contains maybe then maybe
  else yes

/-- `yes` if any is, `no` if all are. -/
def any (results : List Verdict) : Verdict :=
  if results.contains yes then yes
  else if results.contains maybe then maybe
  else no

/-- `yes` if all are `no`, and `no` if any is `yes`. -/
def none (results : List Verdict) : Verdict :=
  (any results).negate

/-- `yes` if one is and the others are not, `no` if two are or all are not. -/
def exactlyOne (results : List Verdict) : Verdict :=
  let yeses := results.count yes
  if 2 ≤ yeses then no
  else if results.contains maybe then maybe
  else if yeses = 1 then yes
  else no

/-- Material implication. -/
def implies : Verdict → Verdict → Verdict
  | no, _ => yes
  | _, yes => yes
  | yes, no => no
  | _, _ => maybe

/-- The word for a verdict. -/
def text : Verdict → String
  | yes => "yes"
  | no => "no"
  | maybe => "maybe"

end Verdict

end IsaLogic
