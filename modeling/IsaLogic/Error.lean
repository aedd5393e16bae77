import IsaLogic.Formula.Basic

/-!
# Errors of formula queries

Why building, changing, encoding or solving a formula failed.
-/

namespace IsaLogic

/-- Why a query on formulas failed. -/
inductive QueryError where
  /-- A connective with a number of operands it does not take. -/
  | malformed (connective : Formula.Connective) (count : Nat)
  /-- A comparison whose opposite no single comparison says. -/
  | noSimpleNegation (term : String)
  /-- A two-level form larger than allowed. -/
  | sizeExplosion (clauses limit : Nat)
  /-- No input for a minimizer can be built within the limits. -/
  | tooLargeToMinimize (terms limit : Nat)
  /-- An external tool ended badly. -/
  | toolFailed (tool formula status stderr : String)
  /-- An external tool did not end within its time. -/
  | toolTimeout (tool : String) (seconds : Nat) (formula : String)
  /-- An external tool could not be started. -/
  | toolLaunch (tool cause : String)
  /-- An external tool wrote something without meaning. -/
  | toolOutput (tool detail : String)
  /-- A formula that is no conjunctive form, where one is needed. -/
  | notCnf (formula : String)
  | dimacs (line : Nat) (detail : String)
  | pla (line : Nat) (detail : String)
  /-- A synthetic variable has no declarative form. -/
  | freeTermLeak
  /-- An engine configuration that cannot be read. -/
  | config
  | io (detail : String)
deriving DecidableEq, Repr

namespace QueryError

/-- A length of time in whole seconds. -/
def durationText (seconds : Nat) : String :=
  if seconds = 0 then "0ns" else toString seconds ++ "s"

/-- The wording of the error. -/
def message : QueryError → String
  | malformed connective count =>
    "malformed " ++ connective.label ++ " node: expected " ++ connective.arity ++
      " children, got " ++ toString count
  | noSimpleNegation term => "term has no simple negation: " ++ term
  | sizeExplosion clauses limit =>
    "CNF conversion exploded: " ++ toString clauses ++ " clauses exceeds limit of " ++
      toString limit
  | tooLargeToMinimize terms limit =>
    "cannot minimize over " ++ toString terms ++ " terms: input cover exceeds " ++
      toString limit ++ " cubes"
  | toolFailed tool formula status stderr =>
    tool ++ " failed on formula " ++ formula ++ " (status " ++ status ++ "): " ++ stderr
  | toolTimeout tool seconds formula =>
    tool ++ " timed out after " ++ durationText seconds ++ " on formula " ++ formula
  | toolLaunch tool cause => "could not launch " ++ tool ++ ": " ++ cause
  | toolOutput tool detail => "unexpected output from " ++ tool ++ ": " ++ detail
  | notCnf formula => "formula is not in conjunctive normal form: " ++ formula
  | dimacs line detail => "DIMACS parse error at line " ++ toString line ++ ": " ++ detail
  | pla line detail => "PLA parse error at line " ++ toString line ++ ": " ++ detail
  | freeTermLeak => "synthetic term leaked into caller-visible output"
  | config => "invalid engine configuration"
  | io detail => "I/O error: " ++ detail

end QueryError

namespace Formula

/-- Apply a connective to operands, checking their number. -/
def build (connective : Connective) (operands : List Formula) : Except QueryError Formula :=
  match build? connective operands with
  | some f => .ok f
  | none => .error (.malformed connective operands.length)

end Formula

namespace ParamTerm

/-- The term in the opposite sense. -/
def negation (term : ParamTerm) : Except QueryError ParamTerm :=
  match term.negation? with
  | some opposite => .ok opposite
  | none => .error (.noSimpleNegation term.text)

end ParamTerm

namespace Term

/-- The declarative form of a term. -/
def toJson (term : Term) : Except QueryError Json :=
  match term.toJson? with
  | some json => .ok json
  | none => .error .freeTermLeak

end Term

end IsaLogic
