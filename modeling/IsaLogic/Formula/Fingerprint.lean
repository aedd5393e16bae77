import IsaLogic.Digest.Tagged
import IsaLogic.Formula.Basic
import IsaLogic.Text.Quoted

/-!
# Fingerprints of formulas

A fingerprint covers the connective of a formula and the fingerprints of its
operands, or the record text of its term. It does not depend on how a formula
came about, so equal formulas have equal fingerprints.
-/

namespace IsaLogic

/-- A record with named fields. -/
def recordText (name : String) (fields : List (String × String)) : String :=
  let parts := fields.map fun (field, value) => field ++ ": " ++ value
  name ++ " \x7b " ++ String.intercalate ", " parts ++ " \x7d"

/-- A name applied to a value. -/
def taggedText (name value : String) : String := name ++ "(" ++ value ++ ")"

namespace Version

/-- The record text of a version; absent parts are left out. -/
def recordText (version : Version) : String :=
  let numbers :=
    [("major", toString version.major), ("minor", toString version.minor),
      ("patch", toString version.patch)]
  let pre := if version.pre.isEmpty then []
    else [("pre", taggedText "Prerelease" (Text.quoteString version.preText))]
  let build := if version.build.isEmpty then []
    else [("build", taggedText "BuildMetadata" (Text.quoteString version.buildText))]
  IsaLogic.recordText "Version" (numbers ++ pre ++ build)

end Version

namespace ParamValue

mutual

/-- The record text of a value. -/
def recordText : ParamValue → String
  | bool true => "Bool(true)"
  | bool false => "Bool(false)"
  | int value => taggedText "Int" (toString value)
  | str value => taggedText "Str" (Text.quoteString value)
  | array items => "Array([" ++ String.intercalate ", " (recordTexts items) ++ "])"

/-- The record texts of some values. -/
def recordTexts : List ParamValue → List String
  | [] => []
  | item :: rest => recordText item :: recordTexts rest

end

end ParamValue

namespace Comparison

/-- The record text of a comparison. -/
def recordText (comparison : Comparison) : String :=
  let operand := match comparison with
    | equal v | notEqual v | includes v => v.recordText
    | lessThan n | greaterThan n | atMost n | atLeast n => toString n
    | oneOf vs => "[" ++ String.intercalate ", " (vs.map ParamValue.recordText) ++ "]"
  taggedText comparison.name operand

end Comparison

namespace ParamScope

/-- The record text of a scope. -/
def recordText : ParamScope → String
  | value => "Value"
  | index position => taggedText "Index" (toString position)
  | size => "Size"

end ParamScope

namespace Term

/-- The record text of a term, which determines it. -/
def recordText : Term → String
  | extension term =>
    taggedText "Extension" <| IsaLogic.recordText "ExtensionTerm"
      [("name", Text.quoteString term.name), ("op", term.op.name),
        ("version", term.version.recordText)]
  | parameter term =>
    taggedText "Parameter" <| IsaLogic.recordText "ParameterTerm"
      [("name", Text.quoteString term.name), ("scope", term.scope.recordText),
        ("comparison", term.comparison.recordText)]
  | xlen width => taggedText "Xlen" width.name
  | free id => taggedText "Free" (taggedText "FreeTerm" (toString id))

end Term

namespace Formula

/-- The fingerprint of a formula under a hash function. -/
def fingerprintWith (hash : Bytes → Bytes) : Formula → Bytes :=
  let tagged := Digest.taggedWith hash
  fold {
    constant := fun value => tagged (if value then "true" else "false") []
    atom := fun term => tagged "term" [Digest.textBytes term.recordText]
    neg := fun f => tagged "not" [f]
    conj := tagged "and"
    disj := tagged "or"
    exactlyOne := tagged "xor"
    noneOf := tagged "none"
    implies := fun a b => tagged "if" [a, b] }

/-- The fingerprint of a formula. -/
def fingerprint (f : Formula) : Bytes := f.fingerprintWith Sha256.digest

end Formula

end IsaLogic
