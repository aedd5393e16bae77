import IsaLogic.Clause.Basic
import IsaLogic.Json.Printer
import IsaLogic.Json.Reader

/-!
# Reading clauses

Clauses are read from canonical JSON values, whose objects have ascending keys.
Reading is strict: an unknown key or a body of the wrong shape is an error, and
nothing is ignored. Where a mapping has several faults, the first key in
ascending order decides.
-/

namespace IsaLogic.Clause

/-- A mapping with a wrong set of keys. -/
def keysError (keys : List String) : ConditionError :=
  if keys.contains "if" || keys.contains "then" then
    match keys.find? fun key => key != "if" && key != "then" with
    | some key => .unknownClauseKey key
    | none =>
      if keys.contains "if" then .malformedClause "'if' without 'then'"
      else .malformedClause "'then' without 'if'"
  else if keys.isEmpty then .malformedClause "empty clause mapping"
  else .malformedClause ("clause has more than one key: " ++ String.intercalate ", " keys)

/-- Read the body of an extension clause. -/
def readExtension (body : Json) : Except ConditionError Clause := do
  let fields ← match body with
    | .obj fields => pure fields
    | _ => throw (.malformedClause "'extension' expects a mapping")
  if let some (key, _) := fields.find? fun field => field.1 != "name" && field.1 != "version" then
    throw (.unknownClauseKey ("extension." ++ key))
  let name ← match lookup? "name" fields with
    | some (.str name) => pure name
    | _ => throw (.malformedClause "extension needs a string 'name'")
  match lookup? "version" fields with
  | none => return .extension name none
  | some (.str requirement) =>
    match Requirement.parse requirement.toList with
    | .ok _ => return .extension name (some requirement)
    | .error cause => throw (.invalidVersion requirement cause)
  | some other =>
    throw (.malformedClause ("extension version must be a string, got " ++ other.compact))

/-- Read the operand of an ordering. -/
def readBound (key : String) (value : Json) : Except ConditionError Int64 :=
  match value.int64? with
  | some bound => .ok bound
  | none => .error (.malformedClause ("'" ++ key ++ "' expects an integer, got " ++ value.compact))

/-- Read an operand of any kind. -/
def readOperand (value : Json) : Except ConditionError ParamValue :=
  match ParamValue.ofJson? value with
  | some operand => .ok operand
  | none => .error .json

/-- Read the alternatives of a comparison. -/
def readAlternatives : Json → Except ConditionError (List ParamValue)
  | .arr items => items.mapM readOperand
  | other => .error (.malformedClause ("'oneOf' expects a list of values, got " ++ other.compact))

/-- Read a comparison. -/
def readComparison (key : String) (value : Json) : Except ConditionError Comparison :=
  match key with
  | "equal" => (readOperand value).map .equal
  | "not_equal" => (readOperand value).map .notEqual
  | "less_than" => (readBound key value).map .lessThan
  | "greater_than" => (readBound key value).map .greaterThan
  | "less_than_or_equal" => (readBound key value).map .atMost
  | "greater_than_or_equal" => (readBound key value).map .atLeast
  | "includes" => (readOperand value).map .includes
  | "oneOf" => (readAlternatives value).map .oneOf
  | other => .error (.unknownClauseKey ("param." ++ other))

/-- Narrow the scope, which can be done once. -/
def narrow (scope narrowed : ParamScope) : Except ConditionError ParamScope :=
  if scope = .value then .ok narrowed
  else .error (.malformedClause "param cannot have both 'index' and 'size'")

/-- Read the fields of a parameter clause, in order. -/
def readParamFields (name : String) (scope : ParamScope) (comparison : Option Comparison) :
    List (String × Json) → Except ConditionError ParamTerm
  | [] =>
    match comparison with
    | some comparison => .ok (ParamTerm.make name scope comparison)
    | none => .error (.malformedClause ("param '" ++ name ++ "' has no comparison"))
  | (key, value) :: rest => do
    match key with
    | "name" => readParamFields name scope comparison rest
    | "index" =>
      match value.uint64? with
      | some position =>
        readParamFields name (← narrow scope (.index position)) comparison rest
      | none =>
        throw (.malformedClause
          ("param index must be a non-negative integer, got " ++ value.compact))
    | "size" =>
      match value with
      | .bool true => readParamFields name (← narrow scope .size) comparison rest
      | other => throw (.malformedClause ("param size must be true, got " ++ other.compact))
    | key =>
      let found ← readComparison key value
      if comparison.isSome then
        throw (.malformedClause ("param '" ++ name ++ "' has more than one comparison"))
      readParamFields name scope (some found) rest

/-- Read the body of a parameter clause. -/
def readParam (body : Json) : Except ConditionError Clause := do
  let fields ← match body with
    | .obj fields => pure fields
    | _ => throw (.malformedClause "'param' expects a mapping")
  match lookup? "name" fields with
  | some (.str name) => return .param (← readParamFields name .value none fields)
  | _ => throw (.malformedClause "param needs a string 'name'")

/-- Read the body of a width clause. -/
def readXlen (body : Json) : Except ConditionError Clause :=
  match body.int64? with
  | none => .error (.malformedClause ("'xlen' expects an integer, got " ++ body.compact))
  | some bits =>
    match Xlen.ofBits? bits.toInt with
    | some width => .ok (.xlen width)
    | none => .error (.invalidXlen bits.toInt)

mutual

/-- Read a clause from a canonical JSON value. -/
def ofJson : Json → Except ConditionError Clause
  | .bool value => .ok (.bool value)
  | .obj [(key, body)] => ofEntry key body
  | .obj [(first, a), (second, b)] =>
    if first = "if" ∧ second = "then" then do
      return .ifThen (← ofJson a) (← ofJson b)
    else .error (keysError [first, second])
  | .obj fields => .error (keysError (fields.map Prod.fst))
  | other => .error (.malformedClause ("expected a mapping or boolean, got " ++ other.compact))
termination_by json => 2 * sizeOf json

/-- Read a mapping with one key. -/
def ofEntry (key : String) (body : Json) : Except ConditionError Clause :=
  match key with
  | "allOf" => (ofList key body).map .allOf
  | "anyOf" => (ofList key body).map .anyOf
  | "oneOf" => (ofList key body).map .oneOf
  | "noneOf" => (ofList key body).map .noneOf
  | "not" => (ofJson body).map .negation
  | "extension" => readExtension body
  | "param" => readParam body
  | "xlen" => readXlen body
  | "if" | "then" => .error (keysError [key])
  | other => .error (.unknownClauseKey other)
termination_by 2 * sizeOf body + 1

/-- Read a list of clauses, which must not be empty. -/
def ofList (key : String) : Json → Except ConditionError (List Clause)
  | .arr [] => .error (.malformedClause ("'" ++ key ++ "' needs at least one clause"))
  | .arr items => ofItems items
  | _ => .error (.malformedClause ("'" ++ key ++ "' expects a list"))
termination_by body => 2 * sizeOf body

/-- Read some clauses; the first error decides. -/
def ofItems : List Json → Except ConditionError (List Clause)
  | [] => .ok []
  | item :: rest => do return (← ofJson item) :: (← ofItems rest)
termination_by items => 2 * sizeOf items

end

/-- Read a clause from JSON text. -/
def parse (text : String) : Except ConditionError Clause :=
  match Json.read text with
  | some json => ofJson json.canonical
  | none => .error .json

end IsaLogic.Clause
