import IsaLogic.Configuration.Basic
import IsaLogic.Json.Reader
import IsaLogic.Json.Record

/-!
# Configurations in JSON

A configuration is an object whose `type` says how much is known; the other
fields may be left out, and unknown ones are ignored. Versions have all three
parts. Instead of the object, the array of the type and the fields in order is
read too, and a name of a fixed choice may be written as an object with that one
key and an empty value.
-/

namespace IsaLogic

/-- The name a fixed choice is written with. -/
def Json.choice? : Json → Option String
  | .str name => some name
  | .obj [(name, .null)] => some name
  | .obj [(name, .obj [])] => some name
  | _ => none

/-- A value in JSON, where none is null. -/
def Json.optional? {α : Type} (read : Json → Option α) : Json → Option (Option α)
  | .null => some none
  | json => (read json).map some

/-- Read a version with all three parts. -/
def Version.ofJson? : Json → Option Version
  | .str text => (parseStrict text.toList).toOption
  | _ => none

/-- Read a register width. -/
def Xlen.ofJson? (json : Json) : Option Xlen := json.choice?.bind ofName?

namespace ExtensionTerm

/-- Read a requirement from its three fields. -/
def ofRecord? (json : Json) : Option ExtensionTerm := do
  match ← json.openRecord? ["name", "op", "version"] with
  | [some (.str name), some op, some version] =>
    return { name, op := ← op.choice?.bind VersionOp.ofName?, version := ← Version.ofJson? version }
  | _ => none

/-- The three fields of a requirement. -/
def toRecord (term : ExtensionTerm) : Json :=
  .obj [("name", .str term.name), ("op", .str term.op.name), ("version", .str term.version.text)]

end ExtensionTerm

namespace ParamScope

/-- A scope by its name. -/
def toJson : ParamScope → Json
  | value => .str "Value"
  | index position => .obj [("Index", .int position.toNat)]
  | size => .str "Size"

end ParamScope

namespace ParamTerm

/-- The three fields of a comparison. -/
def toRecord (term : ParamTerm) : Json :=
  .obj [
    ("name", .str term.name),
    ("scope", term.scope.toJson),
    ("comparison", .obj [(term.comparison.name, term.comparison.operand.toJson)])]

end ParamTerm

/-- The values of parameters by name. -/
def paramsToJson (params : List (String × ParamValue)) : Json :=
  .obj (params.map fun entry => (entry.1, entry.2.toJson))

namespace FullConfig

/-- Read the fields, which may all be left out. -/
def ofRecord? (json : Json) : Option FullConfig := do
  match ← json.openRecord? ["extensions", "params", "xlen"] with
  | [extensions, params, xlen] =>
    return {
      extensions := ← (extensions.getD (.obj [])).map? Version.ofJson?
      params := ← (params.getD (.obj [])).map? ParamValue.ofJson?
      xlen := ← (xlen.getD .null).optional? Xlen.ofJson? }
  | _ => none

/-- The fields of a configuration. -/
def toFields (config : FullConfig) : List (String × Json) := [
  ("extensions", .obj (config.extensions.map fun entry => (entry.1, .str entry.2.text))),
  ("params", paramsToJson config.params),
  ("xlen", (config.xlen.map fun width => Json.str width.name).getD .null)]

end FullConfig

namespace PartialConfig

/-- Read the fields, which may all be left out. -/
def ofRecord? (json : Json) : Option PartialConfig := do
  match ← json.openRecord? ["mandatory", "prohibited", "params", "possible_xlens"] with
  | [mandatory, prohibited, params, xlens] =>
    return {
      mandatory := ← (mandatory.getD (.arr [])).list? ExtensionTerm.ofRecord?
      prohibited := ← (prohibited.getD (.arr [])).list? ExtensionTerm.ofRecord?
      params := ← (params.getD (.obj [])).map? ParamValue.ofJson?
      possibleXlens := ← (xlens.getD (.arr [])).list? Xlen.ofJson? }
  | _ => none

/-- The fields of a configuration. -/
def toFields (config : PartialConfig) : List (String × Json) := [
  ("mandatory", .arr (config.mandatory.map ExtensionTerm.toRecord)),
  ("prohibited", .arr (config.prohibited.map ExtensionTerm.toRecord)),
  ("params", paramsToJson config.params),
  ("possible_xlens", .arr (config.possibleXlens.map fun width => .str width.name))]

end PartialConfig

namespace Configuration

/-- The type of a configuration and the record of its fields. The type is given
once. -/
def tagged? : Json → Option (String × Json)
  | .obj fields =>
    match fields.partition fun field => field.1 == "type" with
    | ([(_, .str tag)], others) => some (tag, .obj others)
    | _ => none
  | .arr (.str tag :: items) => some (tag, .arr items)
  | _ => none

/-- Read a configuration from a JSON value as it is written. -/
def ofJson? (json : Json) : Option Configuration := do
  let (tag, body) ← tagged? json
  match tag with
  | "unconfigured" =>
    match body with
    | .arr (_ :: _) => none
    | _ => return unconfigured
  | "partial" => (PartialConfig.ofRecord? body).map partly
  | "full" => (FullConfig.ofRecord? body).map fully
  | _ => none

/-- Read a configuration from a JSON value as it is written. -/
def ofJson (json : Json) : Except ConditionError Configuration :=
  match ofJson? json with
  | some config => .ok config
  | none => .error .json

/-- Read a configuration from JSON text. -/
def parse (text : String) : Except ConditionError Configuration :=
  match Json.read text with
  | some json => ofJson json
  | none => .error .json

/-- A configuration in JSON. -/
def toJson (config : Configuration) : Json :=
  let fields := match config with
    | unconfigured => []
    | partly config => config.toFields
    | fully config => config.toFields
  .obj (("type", .str config.kind) :: fields)

end Configuration

end IsaLogic
