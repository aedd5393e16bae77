import IsaLogic.Error

/-!
# Declarative clauses

Conditions as specifications write them: nested mappings with one key each, the
pair `if` and `then` apart. A clause keeps the text of a version requirement as
it was written.
-/

namespace IsaLogic

/-- Why a condition, a database or a configuration was refused. -/
inductive ConditionError where
  /-- A key outside the vocabulary of clauses. -/
  | unknownClauseKey (key : String)
  /-- Known keys in the wrong shape. -/
  | malformedClause (detail : String)
  | invalidVersion (requirement : String) (cause : RequirementError)
  /-- A version of the database that cannot be read. -/
  | version (cause : VersionError)
  | invalidXlen (bits : Int)
  /-- A synthetic variable has no clause. -/
  | freeTermInClause
  | query (cause : QueryError)
  /-- JSON text that cannot be read, or does not have the wanted structure. -/
  | json
  | io (detail : String)
deriving DecidableEq, Repr

namespace ConditionError

/-- The wording of the error. -/
def message : ConditionError → String
  | unknownClauseKey key => "unknown clause key '" ++ key ++ "'"
  | malformedClause detail => "malformed clause: " ++ detail
  | invalidVersion requirement cause =>
    "invalid version requirement '" ++ requirement ++ "': " ++ cause.message
  | version cause => "invalid version: " ++ cause.message
  | invalidXlen bits => "XLEN must be 32 or 64, got " ++ toString bits
  | freeTermInClause => "tree contains synthetic terms and has no clause form"
  | query cause => cause.message
  | json => "JSON error"
  | io detail => "I/O error: " ++ detail

end ConditionError

/-- A declarative clause. -/
inductive Clause where
  | bool (value : Bool)
  | allOf (clauses : List Clause)
  | anyOf (clauses : List Clause)
  /-- One of the clauses holds and no other. -/
  | oneOf (clauses : List Clause)
  | noneOf (clauses : List Clause)
  | negation (clause : Clause)
  | ifThen (condition consequence : Clause)
  /-- The extension is implemented, at an admitted version if one is given. -/
  | extension (name : String) (version : Option String)
  | param (term : ParamTerm)
  | xlen (width : Xlen)
deriving Inhabited

namespace Clause

mutual

/-- Structural equality. -/
def beq : Clause → Clause → Bool
  | bool a, bool b => a == b
  | allOf as, allOf bs => beqList as bs
  | anyOf as, anyOf bs => beqList as bs
  | oneOf as, oneOf bs => beqList as bs
  | noneOf as, noneOf bs => beqList as bs
  | negation a, negation b => beq a b
  | ifThen a b, ifThen c d => beq a c && beq b d
  | extension a v, extension b w => a == b && v == w
  | param a, param b => a == b
  | xlen a, xlen b => a == b
  | _, _ => false

/-- Structural equality of lists of clauses. -/
def beqList : List Clause → List Clause → Bool
  | [], [] => true
  | a :: as, b :: bs => beq a b && beqList as bs
  | _, _ => false

end

instance : BEq Clause := ⟨beq⟩

mutual

/-- The declarative mapping of a clause. -/
def toJson : Clause → Json
  | bool value => .bool value
  | allOf clauses => .obj [("allOf", .arr (toJsonList clauses))]
  | anyOf clauses => .obj [("anyOf", .arr (toJsonList clauses))]
  | oneOf clauses => .obj [("oneOf", .arr (toJsonList clauses))]
  | noneOf clauses => .obj [("noneOf", .arr (toJsonList clauses))]
  | negation clause => .obj [("not", toJson clause)]
  | ifThen condition consequence =>
    .obj [("if", toJson condition), ("then", toJson consequence)]
  | extension name version =>
    let requirement := match version with
      | none => []
      | some text => [("version", Json.str text)]
    .obj [("extension", .obj (("name", Json.str name) :: requirement))]
  | param term => term.toJson
  | xlen width => .obj [("xlen", .int width.bits)]

/-- The declarative mappings of some clauses. -/
def toJsonList : List Clause → List Json
  | [] => []
  | clause :: rest => toJson clause :: toJsonList rest

end

end Clause

end IsaLogic
